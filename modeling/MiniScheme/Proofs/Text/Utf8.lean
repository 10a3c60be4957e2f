import MiniScheme.Text.Utf8

/-! UTF-8 decoding. The first character of a text is the one whose encoding is a prefix of the text,
if there is one, so texts can be split and joined between characters. -/
namespace MiniScheme.Text

/-- The code point of a lead byte, less its mark, and its continuation bytes. -/
def codeOf (layout : Layout) (lead : UInt8) (tail : Bytes) : Nat :=
  tail.foldl (fun n b => n * 64 + b.toNat % 64) (lead.toNat % layout.modulus)

/-- `Spells layout lead tail c`: the bytes are a complete sequence of this layout, the shortest for
its code point, which is that of `c`. -/
structure Spells (layout : Layout) (lead : UInt8) (tail : Bytes) (c : Char) : Prop where
  announced : Layout.of? lead = some layout
  complete : tail.length + 1 = layout.length
  marked : ∀ b ∈ tail, isContinuation b
  shortest : layout.least ≤ codeOf layout lead tail
  code : codeOf layout lead tail = c.toNat

section

variable {layout : Layout} {lead : UInt8} {rest tail more : Bytes} {c : Char} {g : Glyph}

theorem toNat_ofNat {n : Nat} (h : n.isValidChar) : (Char.ofNat n).toNat = n := by
  have hchar : Char.ofNat n = Char.ofNatAux n h := dif_pos h
  exact congrArg Char.toNat hchar

theorem toNat_lt (c : Char) : c.toNat < 0x110000 := by
  have h : c.toNat.isValidChar := c.valid
  unfold Nat.isValidChar at h
  omega

theorem toUInt8_eq_iff {b : UInt8} {n : Nat} (h : n < 256) : n.toUInt8 = b ↔ b.toNat = n := by
  rw [← UInt8.toNat_inj, Nat.toUInt8, UInt8.toNat_ofNat_of_lt' h, eq_comm]

theorem toNat_toUInt8 {n : Nat} (h : n < 256) : n.toUInt8.toNat = n :=
  (toUInt8_eq_iff h).1 rfl

theorem isContinuation_iff {b : UInt8} :
    isContinuation b = true ↔ 0x80 ≤ b.toNat ∧ b.toNat < 0xC0 := by
  simp [isContinuation, UInt8.le_iff_toNat_le, UInt8.lt_iff_toNat_lt]

theorem toNat_continuation (n : Nat) : (0x80 + n % 64).toUInt8.toNat = 0x80 + n % 64 :=
  toNat_toUInt8 (by omega)

theorem isContinuation_toUInt8 (n : Nat) : isContinuation (0x80 + n % 64).toUInt8 := by
  rw [isContinuation_iff, toNat_continuation]
  omega

theorem Layout.of?_eq_some_iff :
    Layout.of? lead = some layout ↔
      lead.toNat < 0x80 ∧ layout = ⟨1, 0x80, 0⟩ ∨
      (0xC0 ≤ lead.toNat ∧ lead.toNat < 0xE0) ∧ layout = ⟨2, 0x20, 0x80⟩ ∨
      (0xE0 ≤ lead.toNat ∧ lead.toNat < 0xF0) ∧ layout = ⟨3, 0x10, 0x800⟩ ∨
      (0xF0 ≤ lead.toNat ∧ lead.toNat < 0xF8) ∧ layout = ⟨4, 0x08, 0x10000⟩ := by
  unfold Layout.of?
  simp only [UInt8.lt_iff_toNat_lt, UInt8.reduceToNat]
  grind

/-- A well-formed sequence is the encoding of its character. -/
theorem Spells.encode_eq (h : Spells layout lead tail c) : encode c = lead :: tail := by
  have hlen := h.complete
  have hmarked := h.marked
  have hleast := h.shortest
  have hcode := h.code
  have hc := toNat_lt c
  rcases Layout.of?_eq_some_iff.1 h.announced with ⟨hl, rfl⟩ | ⟨hl, rfl⟩ | ⟨hl, rfl⟩ | ⟨hl, rfl⟩
  · match tail, hlen with
    | [], _ =>
      simp only [codeOf, List.foldl_nil] at hcode
      have h1 : c.toNat < 0x80 := by omega
      simp only [encode, if_pos h1]
      rw [(toUInt8_eq_iff (b := lead) (by omega)).2 (by omega)]
  · match tail, hlen with
    | [b], _ =>
      have hb := isContinuation_iff.1 (hmarked b (by simp))
      simp only [codeOf, List.foldl_cons, List.foldl_nil] at hcode hleast
      have h1 : ¬ c.toNat < 0x80 := by omega
      have h2 : c.toNat < 0x800 := by omega
      simp only [encode, if_neg h1, if_pos h2]
      rw [(toUInt8_eq_iff (b := lead) (by omega)).2 (by omega),
        (toUInt8_eq_iff (b := b) (by omega)).2 (by omega)]
  · match tail, hlen with
    | [a, b], _ =>
      have ha := isContinuation_iff.1 (hmarked a (by simp))
      have hb := isContinuation_iff.1 (hmarked b (by simp))
      simp only [codeOf, List.foldl_cons, List.foldl_nil] at hcode hleast
      have h1 : ¬ c.toNat < 0x80 := by omega
      have h2 : ¬ c.toNat < 0x800 := by omega
      have h3 : c.toNat < 0x10000 := by omega
      simp only [encode, if_neg h1, if_neg h2, if_pos h3]
      rw [(toUInt8_eq_iff (b := lead) (by omega)).2 (by omega),
        (toUInt8_eq_iff (b := a) (by omega)).2 (by omega),
        (toUInt8_eq_iff (b := b) (by omega)).2 (by omega)]
  · match tail, hlen with
    | [a, b, d], _ =>
      have ha := isContinuation_iff.1 (hmarked a (by simp))
      have hb := isContinuation_iff.1 (hmarked b (by simp))
      have hd := isContinuation_iff.1 (hmarked d (by simp))
      simp only [codeOf, List.foldl_cons, List.foldl_nil] at hcode hleast
      have h1 : ¬ c.toNat < 0x80 := by omega
      have h2 : ¬ c.toNat < 0x800 := by omega
      have h3 : ¬ c.toNat < 0x10000 := by omega
      simp only [encode, if_neg h1, if_neg h2, if_neg h3]
      rw [(toUInt8_eq_iff (b := lead) (by omega)).2 (by omega),
        (toUInt8_eq_iff (b := a) (by omega)).2 (by omega),
        (toUInt8_eq_iff (b := b) (by omega)).2 (by omega),
        (toUInt8_eq_iff (b := d) (by omega)).2 (by omega)]

/-- Every encoding is a well-formed sequence. -/
theorem exists_spells_encode (c : Char) :
    ∃ layout lead tail, encode c = lead :: tail ∧ Spells layout lead tail c := by
  have hc := toNat_lt c
  by_cases h1 : c.toNat < 0x80
  · have hlead := toNat_toUInt8 (n := c.toNat) (by omega)
    have hcode : codeOf ⟨1, 0x80, 0⟩ c.toNat.toUInt8 [] = c.toNat := by
      simp only [codeOf, List.foldl_nil, hlead]
      omega
    refine ⟨_, _, _, if_pos h1, Layout.of?_eq_some_iff.2 (.inl ⟨?_, rfl⟩), rfl, ?_, ?_, hcode⟩
    · omega
    · simp
    · exact Nat.zero_le _
  by_cases h2 : c.toNat < 0x800
  · have hlead := toNat_toUInt8 (n := 0xC0 + c.toNat / 64) (by omega)
    have hcode : codeOf ⟨2, 0x20, 0x80⟩ (0xC0 + c.toNat / 64).toUInt8
        [(0x80 + c.toNat / 1 % 64).toUInt8] = c.toNat := by
      simp only [codeOf, List.foldl_cons, List.foldl_nil, hlead, toNat_continuation]
      omega
    refine ⟨_, _, _, by simp only [encode, if_neg h1, if_pos h2],
      Layout.of?_eq_some_iff.2 (.inr (.inl ⟨?_, rfl⟩)), rfl, ?_, ?_, hcode⟩
    · omega
    · simp only [List.forall_mem_cons, isContinuation_toUInt8]
      simp
    · simp only [hcode]
      omega
  by_cases h3 : c.toNat < 0x10000
  · have hlead := toNat_toUInt8 (n := 0xE0 + c.toNat / 0x1000) (by omega)
    have hcode : codeOf ⟨3, 0x10, 0x800⟩ (0xE0 + c.toNat / 0x1000).toUInt8
        [(0x80 + c.toNat / 64 % 64).toUInt8, (0x80 + c.toNat / 1 % 64).toUInt8] =
          c.toNat := by
      simp only [codeOf, List.foldl_cons, List.foldl_nil, hlead, toNat_continuation]
      omega
    refine ⟨_, _, _, by simp only [encode, if_neg h1, if_neg h2, if_pos h3],
      Layout.of?_eq_some_iff.2 (.inr (.inr (.inl ⟨?_, rfl⟩))), rfl, ?_, ?_, hcode⟩
    · omega
    · simp only [List.forall_mem_cons, isContinuation_toUInt8]
      simp
    · simp only [hcode]
      omega
  · have hlead := toNat_toUInt8 (n := 0xF0 + c.toNat / 0x40000) (by omega)
    have hcode : codeOf ⟨4, 0x08, 0x10000⟩ (0xF0 + c.toNat / 0x40000).toUInt8
        [(0x80 + c.toNat / 0x1000 % 64).toUInt8, (0x80 + c.toNat / 64 % 64).toUInt8,
          (0x80 + c.toNat / 1 % 64).toUInt8] = c.toNat := by
      simp only [codeOf, List.foldl_cons, List.foldl_nil, hlead, toNat_continuation]
      omega
    refine ⟨_, _, _, by simp only [encode, if_neg h1, if_neg h2, if_neg h3],
      Layout.of?_eq_some_iff.2 (.inr (.inr (.inr ⟨?_, rfl⟩))), rfl, ?_, ?_, hcode⟩
    · omega
    · simp only [List.forall_mem_cons, isContinuation_toUInt8]
      simp
    · simp only [hcode]
      omega

theorem spells_of_sequence? (h : sequence? lead rest = some g) :
    ∃ layout tail, tail <+: rest ∧ g.bytes = lead :: tail ∧ Spells layout lead tail g.char := by
  unfold sequence? at h
  obtain ⟨layout, hl, h⟩ := Option.bind_eq_some_iff.1 h
  dsimp only at h
  split at h
  · rename_i hc
    obtain ⟨hlen, hall, hleast, hvalid⟩ := hc
    cases h
    exact ⟨layout, _, List.take_prefix _ _, rfl, hl, hlen, List.all_eq_true.1 hall, hleast,
      (toNat_ofNat hvalid).symm⟩
  · cases h

theorem sequence?_of_spells (h : Spells layout lead tail c) (more : Bytes) :
    sequence? lead (tail ++ more) = some ⟨c, lead :: tail⟩ := by
  have htake : (tail ++ more).take (layout.length - 1) = tail := by
    rw [← h.complete, Nat.add_sub_cancel, List.take_left]
  have hvalid : (codeOf layout lead tail).isValidChar := by
    rw [h.code]
    exact c.valid
  have hchar : Char.ofNat (codeOf layout lead tail) = c := by
    rw [h.code, Char.ofNat_toNat]
  unfold sequence?
  rw [h.announced, Option.bind_eq_bind, Option.bind_some, htake]
  refine (if_pos ⟨h.complete, List.all_eq_true.2 h.marked, h.shortest, hvalid⟩).trans ?_
  rw [← hchar]
  rfl

/-- The decoder finds the sequence whose encoding is a prefix of the text. -/
theorem sequence?_eq_some_iff :
    sequence? lead rest = some g ↔ g.bytes = encode g.char ∧ encode g.char <+: lead :: rest := by
  constructor
  · intro h
    obtain ⟨layout, tail, hpre, hbytes, hs⟩ := spells_of_sequence? h
    rw [hbytes, hs.encode_eq]
    exact ⟨rfl, List.cons_prefix_cons.2 ⟨rfl, hpre⟩⟩
  · rintro ⟨hbytes, hpre⟩
    obtain ⟨layout, lead', tail, he, hs⟩ := exists_spells_encode g.char
    rw [he] at hpre hbytes
    obtain ⟨rfl, more, rfl⟩ := List.cons_prefix_cons.1 hpre
    rw [sequence?_of_spells hs, ← hbytes]

end

theorem isContinuation_of_encode {c : Char} {lead : UInt8} {tail : Bytes}
    (h : encode c = lead :: tail) : ∀ b ∈ tail, isContinuation b := by
  obtain ⟨layout, lead', tail', he, hs⟩ := exists_spells_encode c
  rw [h] at he
  cases he
  exact hs.marked

theorem encode_ne_nil (c : Char) : encode c ≠ [] := by
  obtain ⟨layout, lead, tail, he, -⟩ := exists_spells_encode c
  rw [he]
  exact List.cons_ne_nil _ _

/-- A byte below 0x80 occurs in no encoding but its own. -/
theorem eq_ofNat_of_mem_encode {c : Char} {b : UInt8} (hb : b.toNat < 0x80) (h : b ∈ encode c) :
    c = Char.ofNat b.toNat := by
  obtain ⟨layout, lead, tail, he, hs⟩ := exists_spells_encode c
  have hnot : b ∉ tail := by
    intro hmem
    have := isContinuation_iff.1 (hs.marked b hmem)
    omega
  have hlead : lead = b := by
    rw [he] at h
    rcases List.mem_cons.1 h with h | h
    · exact h.symm
    · exact absurd h hnot
  have hcode := hs.code
  rcases Layout.of?_eq_some_iff.1 hs.announced with ⟨hl, rfl⟩ | ⟨hl, -⟩ | ⟨hl, -⟩ | ⟨hl, -⟩
  · have htail : tail = [] := List.length_eq_zero_iff.1 (Nat.succ.inj hs.complete)
    subst htail
    simp only [codeOf, List.foldl_nil, hlead] at hcode
    rw [← Char.ofNat_toNat c, ← hcode, Nat.mod_eq_of_lt hb]
  all_goals
    rw [hlead] at hl
    omega

theorem glyphsFrom_eq_drop (skip : Nat) (text : Bytes) :
    glyphsFrom skip text = glyphs (text.drop skip) := by
  induction text generalizing skip with
  | nil => cases skip <;> rfl
  | cons b rest ih =>
    cases skip with
    | zero => rfl
    | succ skip => exact ih skip

@[simp] theorem glyphs_nil : glyphs [] = [] := rfl

theorem glyphs_encode (c : Char) (rest : Bytes) :
    glyphs (encode c ++ rest) = ⟨c, encode c⟩ :: glyphs rest := by
  obtain ⟨layout, lead, tail, he, hs⟩ := exists_spells_encode c
  have hf : firstGlyph lead (tail ++ rest) = ⟨c, lead :: tail⟩ := by
    unfold firstGlyph
    rw [sequence?_of_spells hs]
    rfl
  rw [he, List.cons_append, glyphs, glyphsFrom, hf]
  simp only [List.length_cons, Nat.add_sub_cancel, glyphsFrom_eq_drop, List.drop_left]

theorem glyphs_encode_self (c : Char) : glyphs (encode c) = [⟨c, encode c⟩] := by
  have h := glyphs_encode c []
  rwa [List.append_nil] at h

/-- A byte at which no encoding starts is decoded alone. -/
theorem glyphs_invalid {b : UInt8} {rest : Bytes} (h : ∀ c, ¬ encode c <+: b :: rest) :
    glyphs (b :: rest) = ⟨replacement, [b]⟩ :: glyphs rest := by
  have hf : firstGlyph b rest = ⟨replacement, [b]⟩ := by
    unfold firstGlyph
    cases hs : sequence? b rest with
    | none => rfl
    | some g => exact absurd (sequence?_eq_some_iff.1 hs).2 (h g.char)
  rw [glyphs, glyphsFrom, hf]
  rfl

/-- Every text is empty, starts with a character, or starts with a byte that belongs to none. -/
@[elab_as_elim]
theorem text_induction {motive : Bytes → Prop} (nil : motive [])
    (char : ∀ c rest, motive rest → motive (encode c ++ rest))
    (invalid : ∀ b rest, (∀ c, ¬ encode c <+: b :: rest) → motive rest → motive (b :: rest))
    (text : Bytes) : motive text := by
  induction hn : text.length using Nat.strongRecOn generalizing text with
  | ind n ih =>
    subst hn
    match text with
    | [] => exact nil
    | b :: rest =>
      by_cases h : ∃ c, encode c <+: b :: rest
      · obtain ⟨c, more, he⟩ := h
        have hlt : more.length < (b :: rest).length := by
          have hpos := List.length_pos_iff.2 (encode_ne_nil c)
          rw [← he, List.length_append]
          omega
        rw [← he]
        exact char c more (ih _ hlt more rfl)
      · exact invalid b rest (not_exists.1 h) (ih _ (Nat.lt_succ_self _) rest rfl)

/-- Decoding is lossless. -/
theorem spelling_glyphs (text : Bytes) : spelling (glyphs text) = text := by
  induction text using text_induction with
  | nil => rfl
  | char c rest ih =>
    rw [glyphs_encode, spelling, List.flatMap_cons]
    exact congrArg (encode c ++ ·) ih
  | invalid b rest h ih =>
    rw [glyphs_invalid h, spelling, List.flatMap_cons]
    exact congrArg (b :: ·) ih

/-- No character of a preceding text extends into this one. -/
def IsBoundary (text : Bytes) : Prop :=
  ∀ b ∈ text.head?, isContinuation b = false

theorem isBoundary_nil : IsBoundary [] := by
  intro b hb
  cases hb

theorem isBoundary_cons {b : UInt8} (h : isContinuation b = false) (rest : Bytes) :
    IsBoundary (b :: rest) := by
  intro b' hb
  cases hb
  exact h

theorem isBoundary_encode (c : Char) (rest : Bytes) : IsBoundary (encode c ++ rest) := by
  obtain ⟨layout, lead, tail, he, hs⟩ := exists_spells_encode c
  rw [he, List.cons_append]
  refine isBoundary_cons ?_ _
  rw [Bool.eq_false_iff, Ne, isContinuation_iff]
  rcases Layout.of?_eq_some_iff.1 hs.announced with ⟨hl, -⟩ | ⟨hl, -⟩ | ⟨hl, -⟩ | ⟨hl, -⟩
  all_goals omega

theorem isBoundary_encode_self (c : Char) : IsBoundary (encode c) := by
  have h := isBoundary_encode c []
  rwa [List.append_nil] at h

/-- Decoding distributes over an append at a boundary. -/
theorem glyphs_append (text : Bytes) {rest : Bytes} (h : IsBoundary rest) :
    glyphs (text ++ rest) = glyphs text ++ glyphs rest := by
  induction text using text_induction with
  | nil => rfl
  | char c text ih => rw [List.append_assoc, glyphs_encode, glyphs_encode, ih, List.cons_append]
  | invalid b text hinv ih =>
    have hinv' : ∀ c, ¬ encode c <+: b :: (text ++ rest) := by
      intro c hc
      rcases List.prefix_or_prefix_of_prefix hc (List.prefix_append (b :: text) rest) with hp | hp
      · exact hinv c hp
      · obtain ⟨more, hmore⟩ := hp
        rw [← hmore, List.cons_append, List.cons_prefix_cons, List.prefix_append_right_inj] at hc
        cases more with
        | nil =>
          rw [List.append_nil] at hmore
          exact hinv c (hmore ▸ List.prefix_rfl)
        | cons b' more =>
          have hb' : isContinuation b' := isContinuation_of_encode hmore.symm b' (by simp)
          obtain ⟨tail, rfl⟩ := hc.2
          rw [h b' rfl] at hb'
          cases hb'
    rw [List.cons_append, glyphs_invalid hinv', glyphs_invalid hinv, ih, List.cons_append]

/-- Whatever follows the text is decoded independently of it. -/
def IsWhole (text : Bytes) : Prop :=
  ∀ rest, glyphs (text ++ rest) = glyphs text ++ glyphs rest

theorem isWhole_nil : IsWhole [] :=
  fun _ => rfl

theorem isWhole_encode (c : Char) : IsWhole (encode c) := by
  intro rest
  rw [glyphs_encode, glyphs_encode_self]
  rfl

theorem isWhole_append_encode (text : Bytes) (c : Char) : IsWhole (text ++ encode c) := by
  intro rest
  rw [List.append_assoc, glyphs_append _ (isBoundary_encode c rest),
    glyphs_append _ (isBoundary_encode_self c), isWhole_encode, List.append_assoc]

theorem IsWhole.append {a b : Bytes} (ha : IsWhole a) (hb : IsWhole b) : IsWhole (a ++ b) := by
  intro rest
  rw [List.append_assoc, ha, ha, hb, List.append_assoc]

def first? (text : Bytes) : Option Char :=
  (glyphs text).head?.map (·.char)

@[simp] theorem first?_nil : first? [] = none := rfl

theorem first?_encode (c : Char) (rest : Bytes) : first? (encode c ++ rest) = some c := by
  unfold first?
  rw [glyphs_encode]
  rfl

/-- Encodings are prefix-free. -/
theorem encode_append_inj {c d : Char} {s t : Bytes} (h : encode c ++ s = encode d ++ t) :
    c = d ∧ s = t := by
  have hfirst := first?_encode c s
  rw [h, first?_encode] at hfirst
  obtain rfl := Option.some.inj hfirst
  exact ⟨rfl, List.append_cancel_left h⟩

theorem first?_invalid {b : UInt8} {rest : Bytes} (h : ∀ c, ¬ encode c <+: b :: rest) :
    first? (b :: rest) = some replacement := by
  unfold first?
  rw [glyphs_invalid h]
  rfl

theorem first?_append {text rest : Bytes} (hne : text ≠ []) (h : IsBoundary rest) :
    first? (text ++ rest) = first? text := by
  unfold first?
  rw [glyphs_append text h]
  cases hg : glyphs text with
  | nil =>
    have hs := spelling_glyphs text
    rw [hg] at hs
    exact absurd hs.symm hne
  | cons g gs => rfl

theorem first?_isSome {text : Bytes} (h : text ≠ []) : ∃ c, first? text = some c := by
  cases text using text_induction with
  | nil => exact absurd rfl h
  | char c rest => exact ⟨c, first?_encode c rest⟩
  | invalid b rest hinv => exact ⟨replacement, first?_invalid hinv⟩

theorem eq_encode_append_of_first? {text : Bytes} {c : Char} (h : first? text = some c)
    (hc : c ≠ replacement) : ∃ rest, text = encode c ++ rest := by
  cases text using text_induction with
  | nil => cases h
  | char d rest =>
    rw [first?_encode] at h
    cases h
    exact ⟨rest, rfl⟩
  | invalid b rest hinv =>
    rw [first?_invalid hinv] at h
    exact absurd (Option.some.inj h).symm hc

def repair (text : Bytes) : Bytes :=
  (glyphs text).flatMap fun g => if g.char = replacement then encode replacement else g.bytes

theorem repair_eq (text : Bytes) : repair text = (glyphs text).flatMap (encode ·.char) := by
  unfold repair
  induction text using text_induction with
  | nil => rfl
  | char c rest ih =>
    rw [glyphs_encode, List.flatMap_cons, List.flatMap_cons, ih]
    split
    · rename_i hc
      rw [← hc]
    · rfl
  | invalid b rest h ih =>
    rw [glyphs_invalid h, List.flatMap_cons, List.flatMap_cons, ih]
    rfl

theorem repair_encode (c : Char) (rest : Bytes) :
    repair (encode c ++ rest) = encode c ++ repair rest := by
  rw [repair_eq, repair_eq, glyphs_encode, List.flatMap_cons]

theorem repair_append (text : Bytes) {rest : Bytes} (h : IsBoundary rest) :
    repair (text ++ rest) = repair text ++ repair rest := by
  unfold repair
  rw [glyphs_append text h, List.flatMap_append]

end MiniScheme.Text
