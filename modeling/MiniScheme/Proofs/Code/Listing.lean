import MiniScheme.Code.Listing
import MiniScheme.Proofs.Code.Vocabulary
import MiniScheme.Proofs.Token.Line
import MiniScheme.Proofs.Value.Written

/-! Listings are injective. Each part of a listing determines where it ends, so the parts can be
recovered from left to right. -/
namespace MiniScheme

open Text (encode first?)

namespace Text

theorem exists_of_inRanges {ranges : List (Nat × Nat)} {code : Nat} (h : inRanges ranges code) :
    ∃ r ∈ ranges, r.1 ≤ code ∧ code ≤ r.2 := by
  induction ranges with
  | nil => cases h
  | cons r ranges ih =>
    obtain ⟨hlow, hrest⟩ := Bool.and_eq_true_iff.1 h
    have hlow : r.1 ≤ code := of_decide_eq_true hlow
    rcases Bool.or_eq_true_iff.1 hrest with hhigh | hrest
    · exact ⟨r, List.mem_cons_self, hlow, of_decide_eq_true hhigh⟩
    · obtain ⟨r', hmem, hr'⟩ := ih hrest
      exact ⟨r', List.mem_cons_of_mem r hmem, hr'⟩

theorem isBlank_of_isSubsequent {c : Char} (h : Token.isSubsequent c) : isBlank c = false := by
  have hall : ∀ r ∈ blankRanges, ∀ n < r.2 + 1 - r.1,
      Token.isSubsequent (Char.ofNat (r.1 + n)) = false := by decide +kernel
  refine Bool.eq_false_iff.2 fun hblank => ?_
  obtain ⟨r, hr, hlow, hhigh⟩ := exists_of_inRanges hblank
  have hc := hall r hr (c.toNat - r.1) (by omega)
  rw [Nat.add_sub_cancel' hlow, Char.ofNat_toNat, h] at hc
  cases hc

theorem isBlank_of_isDigit {c : Char} (h : isDigit c) : isBlank c = false := by
  apply isBlank_of_isSubsequent
  simp [Token.isSubsequent, h]

/-- The text does not start with a blank. -/
def BeginsFlush (text : Bytes) : Prop :=
  ∃ c rest, isBlank c = false ∧ text = encode c ++ rest

def EndsFlush (text : Bytes) : Prop :=
  ∃ front c, isBlank c = false ∧ text = front ++ encode c

theorem BeginsFlush.append {text : Bytes} (h : BeginsFlush text) (more : Bytes) :
    BeginsFlush (text ++ more) := by
  obtain ⟨c, rest, hc, rfl⟩ := h
  exact ⟨c, rest ++ more, hc, List.append_assoc ..⟩

theorem EndsFlush.append {text : Bytes} (h : EndsFlush text) (more : Bytes) :
    EndsFlush (more ++ text) := by
  obtain ⟨front, c, hc, rfl⟩ := h
  exact ⟨more ++ front, c, hc, (List.append_assoc ..).symm⟩

theorem trim_eq_self {text : Bytes} (hb : BeginsFlush text) (he : EndsFlush text) :
    trim text = text := by
  obtain ⟨c, rest, hc, hfirst⟩ := hb
  obtain ⟨front, d, hd, hlast⟩ := he
  have hglyphs : glyphs text = ⟨c, encode c⟩ :: glyphs rest := by rw [hfirst, glyphs_encode]
  have hglyphs' : glyphs text = glyphs front ++ [⟨d, encode d⟩] := by
    rw [hlast, glyphs_append front (isBoundary_encode_self d), glyphs_encode_self]
  have hfront : (glyphs text).dropWhile (fun g => isBlank g.char) = glyphs text := by
    rw [hglyphs, List.dropWhile_cons_of_neg (by simp [hc])]
  have hback : (glyphs text).reverse.dropWhile (fun g => isBlank g.char) =
      (glyphs text).reverse := by
    rw [hglyphs', List.reverse_append, List.reverse_singleton, List.singleton_append,
      List.dropWhile_cons_of_neg (by simp [hd])]
  unfold trim
  dsimp only
  rw [hfront, hback, List.reverse_reverse, spelling_glyphs]

section

variable {p : Char → Bool} (hp : ∀ c, p c → isBlank c = false) {w : Word p} (hw : w ≠ [])

include hp hw

theorem beginsFlush_word : BeginsFlush w.spelling := by
  obtain ⟨c, others, rfl⟩ := List.exists_cons_of_ne_nil hw
  exact ⟨c.1, Word.spelling others, hp c.1 c.2, Word.spelling_cons c others⟩

theorem endsFlush_word : EndsFlush w.spelling := by
  let last := w.getLast hw
  have hsplit : w.dropLast ++ [last] = w := List.dropLast_concat_getLast hw
  refine ⟨Word.spelling w.dropLast, last.1, hp last.1 last.2, ?_⟩
  rw [← hsplit, Word.spelling_append, Word.spelling_cons, Word.spelling_nil, List.append_nil,
    hsplit]

end

theorem beginsFlush_decimal (n : Nat) : BeginsFlush (decimal n) := by
  rw [← Word.spelling_ofNat]
  exact beginsFlush_word (fun _ => isBlank_of_isDigit) (Word.ofNat_ne_nil n)

theorem endsFlush_decimal (n : Nat) : EndsFlush (decimal n) := by
  rw [← Word.spelling_ofNat]
  exact endsFlush_word (fun _ => isBlank_of_isDigit) (Word.ofNat_ne_nil n)

theorem endsFlush_signedDecimal (i : Int) : EndsFlush (signedDecimal i) := by
  cases i with
  | ofNat n => exact endsFlush_decimal n
  | negSucc n => exact (endsFlush_decimal (n + 1)).append [0x2D]

end Text

theorem Token.IsName.beginsFlush {name : Bytes} (h : IsName name) : Text.BeginsFlush name := by
  obtain ⟨w, hw, rfl⟩ := h
  exact Text.beginsFlush_word (fun _ => Text.isBlank_of_isSubsequent) hw

theorem Token.IsName.endsFlush {name : Bytes} (h : IsName name) : Text.EndsFlush name := by
  obtain ⟨w, hw, rfl⟩ := h
  exact Text.endsFlush_word (fun _ => Text.isBlank_of_isSubsequent) hw

theorem Value.isPlain_of_isLiteral {v : Value} (h : v.isLiteral) : v.isPlain := by
  cases v with
  | boolean | number | string => rfl
  | null | eof | symbol | char | bytes | pair | hollow | unknown => cases h

namespace Listing

variable {signatures : Signatures}

/-- The signature shown after a name. -/
def remark (signatures : Signatures) (name : Bytes) : Bytes :=
  match signatures.lookup name with
  | some arity => ascii " ; native arity=" ++ Text.signedDecimal arity
  | none => []

theorem operand?_lookup (name : Bytes) :
    operand? signatures (.lookup name) = some (name ++ remark signatures name) := by
  unfold operand? remark
  dsimp only
  cases signatures.lookup name with
  | none => rw [List.append_nil]
  | some arity => exact congrArg some (List.append_assoc ..)

theorem operand?_isSome {op : Op} (h : op.isSolid) : (operand? signatures op).isSome := by
  cases op with
  | immediate v => exact (Value.write?_isSome_iff v).2 h
  | lookup name =>
    rw [operand?_lookup]
    rfl
  | push | define | call | load | invalid => rfl

theorem opLines?_isSome {ops : List Op} (h : ops.all Op.isSolid) (lines : List LineEntry)
    (offset : Nat) : (opLines? signatures lines offset ops).isSome := by
  induction ops generalizing offset with
  | nil => rfl
  | cons op ops ih =>
    obtain ⟨hop, hops⟩ := Bool.and_eq_true_iff.1 h
    obtain ⟨detail, hdetail⟩ := Option.isSome_iff_exists.1 (@operand?_isSome signatures op hop)
    obtain ⟨rest, hrest⟩ := Option.isSome_iff_exists.1 (ih hops (offset + 1))
    simp [opLines?, opLine?, hdetail, hrest]

/-- Solid code has a listing without an error. -/
theorem exists_chunks? {chunks : List (Option Chunk)} (h : chunks.all fun c => c.any Chunk.isSolid)
    (entries : List Int) (first : Bool) :
    ∃ listing, chunks? signatures entries first chunks = some listing ∧ listing.error = none := by
  induction chunks generalizing first with
  | nil => exact ⟨{}, rfl, rfl⟩
  | cons c chunks ih =>
    obtain ⟨hc, hchunks⟩ := Bool.and_eq_true_iff.1 h
    obtain ⟨chunk, rfl, hchunk⟩ := (Option.any_eq_true _ c).1 hc
    obtain ⟨body, hbody⟩ :=
      Option.isSome_iff_exists.1 (@opLines?_isSome signatures _ hchunk chunk.lines 0)
    obtain ⟨tail, htail, herror⟩ := ih hchunks false
    simp [chunks?, chunk?, hbody, htail, herror]

def detail (signatures : Signatures) (op : Op) : Bytes :=
  (operand? signatures op).getD []

theorem operand?_of_isGenuine {op : Op} (h : op.IsGenuine) :
    operand? signatures op = some (detail signatures op) := by
  cases op with
  | immediate v =>
    cases v with
    | boolean | number | string => rfl
    | null | eof | symbol | char | bytes | pair | hollow | unknown => cases h
  | lookup name =>
    unfold detail
    rw [operand?_lookup]
    rfl
  | push | define | call | load | invalid => rfl

/-- Trimming preserves the operands of a source. -/
theorem trim_detail {op : Op} (h : op.IsGenuine) :
    Text.trim (detail signatures op) = detail signatures op := by
  cases op with
  | push id =>
    obtain ⟨n, rfl⟩ := Int.eq_ofNat_of_zero_le h
    have hends : Text.EndsFlush (ascii " ; chunk") := ⟨ascii " ; chun", 'k', rfl, rfl⟩
    exact Text.trim_eq_self ((Text.beginsFlush_decimal n).append _) (hends.append _)
  | immediate v =>
    cases v with
    | boolean b => cases b <;> rfl
    | number n =>
      exact Text.trim_eq_self (Text.beginsFlush_decimal n.toNat) (Text.endsFlush_decimal n.toNat)
    | string text => exact Text.trim_eq_self ⟨'"', _, rfl, rfl⟩ ⟨_, '"', rfl, rfl⟩
    | null | eof | symbol | char | bytes | pair | hollow | unknown => cases h
  | load => rfl
  | define name => exact Text.trim_eq_self h.beginsFlush h.endsFlush
  | lookup name =>
    unfold detail
    rw [operand?_lookup, Option.getD_some]
    refine Text.trim_eq_self (h.beginsFlush.append _) ?_
    unfold remark
    split
    · exact ((Text.endsFlush_signedDecimal _).append _).append _
    · rw [List.append_nil]
      exact h.endsFlush
  | call arity =>
    obtain ⟨n, rfl⟩ := Int.eq_ofNat_of_zero_le h
    exact Text.trim_eq_self (Text.beginsFlush_decimal n) (Text.endsFlush_decimal n)
  | invalid code => cases h

def mnemonics : List Bytes :=
  [ascii "OP_PUSH", ascii "OP_LOAD_IMMEDIATE", ascii "OP_LOAD_VARIABLE", ascii "OP_DEFINE",
    ascii "OP_LOOKUP", ascii "OP_CALL", ascii "OP_UNKNOWN"]

theorem getElem?_mnemonics (op : Op) : mnemonics[op.ctorIdx]? = some op.mnemonic := by
  cases op with
  | push | immediate | load | define | lookup | call | invalid => rfl

theorem length_mnemonic (op : Op) : (padRight 18 0x20 op.mnemonic).length = 18 := by
  have hall : ∀ m ∈ mnemonics, (padRight 18 0x20 m).length = 18 := by decide +kernel
  exact hall op.mnemonic (List.mem_of_getElem? (getElem?_mnemonics op))

/-- The name column determines the kind of the instruction. -/
theorem mnemonic_inj {a b : Op}
    (h : padRight 18 0x20 a.mnemonic = padRight 18 0x20 b.mnemonic) : a.ctorIdx = b.ctorIdx := by
  let columns := mnemonics.map (padRight 18 0x20)
  have hcolumn (op : Op) : columns[op.ctorIdx]? = some (padRight 18 0x20 op.mnemonic) := by
    rw [List.getElem?_map, getElem?_mnemonics]
    rfl
  have hlt : a.ctorIdx < columns.length := (List.getElem?_eq_some_iff.1 (hcolumn a)).1
  have hnodup : columns.Nodup := by decide +kernel
  rw [← List.getElem?_inj hlt hnodup, hcolumn, hcolumn, h]

theorem ends_newline (rest : Bytes) : Ends (0x0A :: rest) :=
  ends_encode (c := '\n') rfl rest

theorem not_isSubsequent_newline (s : Bytes) :
    ∀ c ∈ first? (0x0A :: s), Token.isSubsequent c = false := by
  intro c hc
  rw [first?_newline] at hc
  cases hc
  rfl

theorem not_isSubsequent_remark (name s : Bytes) :
    ∀ c ∈ first? (remark signatures name ++ 0x0A :: s), Token.isSubsequent c = false := by
  intro c hc
  unfold remark at hc
  split at hc
  · cases (Text.first?_encode ' ' _).symm.trans hc
    rfl
  · exact not_isSubsequent_newline s c hc

/-- The operand column is injective among instructions of one kind. -/
theorem detail_append_inj {a b : Op} (ha : a.IsGenuine) (hb : b.IsGenuine)
    (hkind : a.ctorIdx = b.ctorIdx) {s t : Bytes}
    (h : detail signatures a ++ 0x0A :: s = detail signatures b ++ 0x0A :: t) : a = b ∧ s = t := by
  cases a with
  | push i =>
    cases b with
    | push j =>
      obtain ⟨n, rfl⟩ := Int.eq_ofNat_of_zero_le ha
      obtain ⟨m, rfl⟩ := Int.eq_ofNat_of_zero_le hb
      have hrest : Text.decimal n ++ (ascii " ; chunk" ++ 0x0A :: s) =
          Text.decimal m ++ (ascii " ; chunk" ++ 0x0A :: t) := by
        rw [← List.append_assoc, ← List.append_assoc]
        exact h
      have hends (u : Bytes) : Ends (ascii " ; chunk" ++ u) := ends_blank _
      obtain ⟨rfl, hst⟩ := Text.decimal_append_inj (hends _) (hends _) hrest
      exact ⟨rfl, (List.cons.inj (List.append_cancel_left hst)).2⟩
    | _ => cases hkind
  | immediate v =>
    cases b with
    | immediate u =>
      have hv : v.write? = some (detail signatures (.immediate v)) := operand?_of_isGenuine ha
      have hu : u.write? = some (detail signatures (.immediate u)) := operand?_of_isGenuine hb
      obtain ⟨rfl, hst⟩ := (Value.writeInj_of_isPlain (Value.isPlain_of_isLiteral ha)).1
        (Value.isPlain_of_isLiteral hb) hv hu (ends_newline s) (ends_newline t) h
      exact ⟨rfl, (List.cons.inj hst).2⟩
    | _ => cases hkind
  | load =>
    cases b with
    | load => exact ⟨rfl, (List.cons.inj h).2⟩
    | _ => cases hkind
  | define v =>
    cases b with
    | define w =>
      obtain ⟨v, -, rfl⟩ := ha
      obtain ⟨w, -, rfl⟩ := hb
      obtain ⟨rfl, hst⟩ := Word.spelling_append_inj (not_isSubsequent_newline s)
        (not_isSubsequent_newline t) h
      exact ⟨rfl, (List.cons.inj hst).2⟩
    | _ => cases hkind
  | lookup v =>
    cases b with
    | lookup w =>
      obtain ⟨v, -, rfl⟩ := ha
      obtain ⟨w, -, rfl⟩ := hb
      unfold detail at h
      rw [operand?_lookup, operand?_lookup, Option.getD_some, Option.getD_some, List.append_assoc,
        List.append_assoc] at h
      obtain ⟨rfl, hst⟩ := Word.spelling_append_inj (not_isSubsequent_remark _ s)
        (not_isSubsequent_remark _ t) h
      exact ⟨rfl, (List.cons.inj (List.append_cancel_left hst)).2⟩
    | _ => cases hkind
  | call i =>
    cases b with
    | call j =>
      obtain ⟨n, rfl⟩ := Int.eq_ofNat_of_zero_le ha
      obtain ⟨m, rfl⟩ := Int.eq_ofNat_of_zero_le hb
      obtain ⟨rfl, hst⟩ := Text.decimal_append_inj (ends_newline s) (ends_newline t) h
      exact ⟨rfl, (List.cons.inj hst).2⟩
    | _ => cases hkind
  | invalid code => cases ha

theorem padLeft_append_inj {width n m : Nat} {s t : Bytes} (hs : Ends s) (ht : Ends t)
    (h : padLeft width 0x20 (Text.decimal n) ++ s = padLeft width 0x20 (Text.decimal m) ++ t) :
    n = m ∧ s = t := by
  have hdrop (k : Nat) (u : Bytes) :
      (padLeft width 0x20 (Text.decimal k) ++ u).dropWhile (· == 0x20) = Text.decimal k ++ u := by
    obtain ⟨b, rest, hdigits, hlow, -⟩ := Text.exists_decimal_eq_cons k
    have hb : (b == 0x20) = false := by
      rw [beq_eq_false_iff_ne]
      rintro rfl
      exact absurd hlow (by decide)
    unfold padLeft
    rw [List.append_assoc, List.dropWhile_append_of_pos (by simp), hdigits, List.cons_append,
      List.dropWhile_cons_of_neg (by simp [hb])]
  apply Text.decimal_append_inj hs ht
  rw [← hdrop n s, h, hdrop]

def spaced (detail : Bytes) : Bytes :=
  if detail = [] then [] else ascii " " ++ detail

theorem spaced_append_inj {d e s t : Bytes}
    (h : spaced d ++ 0x0A :: s = spaced e ++ 0x0A :: t) : d ++ 0x0A :: s = e ++ 0x0A :: t := by
  unfold spaced at h
  by_cases hd : d = []
  · by_cases he : e = []
    · rw [if_pos hd, if_pos he] at h
      rw [hd, he]
      exact h
    · rw [if_pos hd, if_neg he] at h
      exact absurd (List.cons.inj h).1 (by decide)
  · by_cases he : e = []
    · rw [if_neg hd, if_pos he] at h
      exact absurd (List.cons.inj h).1 (by decide)
    · rw [if_neg hd, if_neg he] at h
      exact (List.cons.inj h).2

theorem opLine?_append_eq {lines : List LineEntry} {offset n : Nat} {op : Op} {x : Bytes}
    (hop : op.IsGenuine) (hline : lineAt lines offset = n)
    (hx : opLine? signatures lines offset op = some x) (s : Bytes) :
    x ++ s = padLeft 4 0x30 (Text.decimal offset) ++ 0x20 ::
      (padLeft 4 0x20 (Text.decimal n) ++ 0x20 ::
        (padRight 18 0x20 op.mnemonic ++ (spaced (detail signatures op) ++ 0x0A :: s))) := by
  have hcolumn : lineColumn n = Text.decimal n := if_pos (Int.natCast_nonneg n)
  have hsome : opLine? signatures lines offset op =
      some (padLeft 4 0x30 (Text.decimal offset) ++ ascii " " ++ padLeft 4 0x20 (Text.decimal n) ++
        ascii " " ++ padRight 18 0x20 op.mnemonic ++ spaced (detail signatures op) ++
        ascii "\n") := by
    unfold opLine?
    rw [operand?_of_isGenuine hop, hline, hcolumn]
    dsimp only [bind, Option.bind]
    rw [trim_detail hop]
    rfl
  cases hx.symm.trans hsome
  simp only [List.append_assoc]
  rfl

/-- From `offset` on, `count` instructions are on the source line `n`. -/
def StandOn (lines : List LineEntry) (n offset count : Nat) : Prop :=
  ∀ k < count, lineAt lines (offset + k : Nat) = n

theorem StandOn.tail {lines : List LineEntry} {n offset count : Nat}
    (h : StandOn lines n offset (count + 1)) : StandOn lines n (offset + 1) count := by
  intro k hk
  have hshift : offset + 1 + k = offset + (k + 1) := by omega
  rw [hshift]
  exact h (k + 1) (Nat.succ_lt_succ hk)

theorem standOn_onLine (id : Int) (n : Nat) (ops : List Op) :
    StandOn (Chunk.onLine id n ops).lines n 0 ops.length := by
  intro k hk
  rw [Nat.zero_add]
  exact Chunk.lineAt_onLine id n hk

section

variable {lines lines' : List LineEntry} {offset n m : Nat} {x y s t : Bytes}

/-- A line determines its source line and its instruction. -/
theorem opLine?_append_inj {a b : Op} (ha : a.IsGenuine) (hb : b.IsGenuine)
    (hn : lineAt lines offset = n) (hm : lineAt lines' offset = m)
    (hx : opLine? signatures lines offset a = some x)
    (hy : opLine? signatures lines' offset b = some y) (h : x ++ s = y ++ t) :
    n = m ∧ a = b ∧ s = t := by
  rw [opLine?_append_eq ha hn hx, opLine?_append_eq hb hm hy] at h
  have hlines := (List.cons.inj (List.append_cancel_left h)).2
  obtain ⟨rfl, hnames⟩ := padLeft_append_inj (ends_blank _) (ends_blank _) hlines
  have hlength := (length_mnemonic a).trans (length_mnemonic b).symm
  obtain ⟨hname, hoperands⟩ := List.append_inj (List.cons.inj hnames).2 hlength
  obtain ⟨rfl, hst⟩ := detail_append_inj ha hb (mnemonic_inj hname) (spaced_append_inj hoperands)
  exact ⟨rfl, rfl, hst⟩

theorem opLines?_append_inj {as bs : List Op} (hlength : as.length = bs.length)
    (ha : ∀ op ∈ as, op.IsGenuine) (hb : ∀ op ∈ bs, op.IsGenuine)
    (hn : StandOn lines n offset as.length) (hm : StandOn lines' m offset bs.length)
    (hx : opLines? signatures lines offset as = some x)
    (hy : opLines? signatures lines' offset bs = some y) (h : x ++ s = y ++ t) :
    as = bs ∧ (as ≠ [] → n = m) ∧ s = t := by
  induction as generalizing bs offset x y with
  | nil =>
    cases List.length_eq_zero_iff.1 hlength.symm
    cases hx
    cases hy
    exact ⟨rfl, fun hne => absurd rfl hne, h⟩
  | cons a as ih =>
    obtain ⟨b, bs, rfl⟩ := List.exists_cons_of_length_eq_add_one hlength.symm
    obtain ⟨line, hline, hx⟩ := Option.bind_eq_some_iff.1 hx
    obtain ⟨rest, hrest, hx⟩ := Option.bind_eq_some_iff.1 hx
    obtain ⟨line', hline', hy⟩ := Option.bind_eq_some_iff.1 hy
    obtain ⟨rest', hrest', hy⟩ := Option.bind_eq_some_iff.1 hy
    cases hx
    cases hy
    rw [List.append_assoc, List.append_assoc] at h
    obtain ⟨hfirst, hothers⟩ := List.forall_mem_cons.1 ha
    obtain ⟨hfirst', hothers'⟩ := List.forall_mem_cons.1 hb
    obtain ⟨rfl, rfl, hrests⟩ := opLine?_append_inj hfirst hfirst' (hn 0 (Nat.succ_pos _))
      (hm 0 (Nat.succ_pos _)) hline hline' h
    obtain ⟨rfl, -, hst⟩ := ih (Nat.succ.inj hlength) hothers hothers' hn.tail hm.tail hrest
      hrest' hrests
    exact ⟨rfl, fun _ => rfl, hst⟩

end

section

variable {c d : Chunk} {i j : Bool} {x y s t : Bytes}

theorem exists_of_chunk? (hx : chunk? signatures i c = some x) :
    ∃ body, opLines? signatures c.lines 0 c.code = some body ∧ ∀ s,
      x ++ s = ascii "chunk " ++ (Text.signedDecimal c.id ++
        ((if i then ascii " [entry]" else []) ++ (ascii " (ops=" ++
          (Text.decimal c.code.length ++ (ascii ")\n" ++ (body ++ s)))))) := by
  obtain ⟨body, hbody, hx⟩ := Option.bind_eq_some_iff.1 hx
  cases hx
  refine ⟨body, hbody, ?_⟩
  intro s
  simp only [List.append_assoc]

theorem entry_append_inj
    (h : (if i then ascii " [entry]" else []) ++ (ascii " (ops=" ++ s) =
      (if j then ascii " [entry]" else []) ++ (ascii " (ops=" ++ t)) : s = t := by
  have hsecond (u v : Bytes) : ascii " [entry]" ++ u ≠ ascii " (ops=" ++ v := by
    intro huv
    have hbytes : some (0x5B : UInt8) = some 0x28 := congrArg (fun text => text[1]?) huv
    exact absurd hbytes (by decide)
  cases i with
  | true =>
    cases j with
    | true => exact List.append_cancel_left (List.append_cancel_left h)
    | false => exact absurd h (hsecond _ _)
  | false =>
    cases j with
    | true => exact absurd h.symm (hsecond _ _)
    | false => exact List.append_cancel_left h

/-- The text of a chunk with a known number determines the chunk. -/
theorem chunk?_append_inj {id : Nat} (hc : c.IsGenuine id) (hd : d.IsGenuine id)
    (hx : chunk? signatures i c = some x) (hy : chunk? signatures j d = some y)
    (h : x ++ s = y ++ t) : c = d ∧ s = t := by
  obtain ⟨body, hbody, hx⟩ := exists_of_chunk? hx
  obtain ⟨body', hbody', hy⟩ := exists_of_chunk? hy
  obtain ⟨line, ops, rfl, hops⟩ := hc
  obtain ⟨line', ops', rfl, hops'⟩ := hd
  rw [hx, hy, Chunk.id_onLine, Chunk.id_onLine] at h
  have hheads := entry_append_inj (List.append_cancel_left (List.append_cancel_left h))
  have hends (u : Bytes) : Ends (ascii ")\n" ++ u) := ends_close _
  obtain ⟨hlength, hbodies⟩ := Text.decimal_append_inj (hends _) (hends _) hheads
  rw [Chunk.code_onLine] at hbody hbody' hlength
  rw [Chunk.code_onLine] at hlength
  obtain ⟨rfl, hline, hst⟩ := opLines?_append_inj hlength hops hops'
    (standOn_onLine id line ops) (standOn_onLine id line' ops') hbody hbody'
    (List.append_cancel_left hbodies)
  refine ⟨?_, hst⟩
  by_cases hne : ops = []
  · rw [hne]
    rfl
  · rw [hline hne]

end

section

variable {entries entries' : List Int} {first : Bool} {x y : Listing}

theorem exists_of_chunks? {c : Chunk} {rest : List (Option Chunk)}
    (hx : chunks? signatures entries first (some c :: rest) = some x) :
    ∃ text tail, chunk? signatures (entries.contains c.id) c = some text ∧
      chunks? signatures entries false rest = some tail ∧
      x.text = (if first then [] else ascii "\n") ++ (text ++ tail.text) := by
  obtain ⟨text, htext, hx⟩ := Option.bind_eq_some_iff.1 hx
  obtain ⟨tail, htail, hx⟩ := Option.bind_eq_some_iff.1 hx
  cases hx
  exact ⟨text, tail, htext, htail, List.append_assoc ..⟩

theorem text_ne_nil {c : Chunk} {rest : List (Option Chunk)}
    (hx : chunks? signatures entries first (some c :: rest) = some x) : x.text ≠ [] := by
  obtain ⟨text, tail, htext, -, heq⟩ := exists_of_chunks? hx
  obtain ⟨body, -, hchunk⟩ := exists_of_chunk? htext
  have hname : ascii "chunk " ≠ [] := by decide +kernel
  rw [heq, hchunk]
  exact List.append_ne_nil_of_right_ne_nil _ (List.append_ne_nil_of_left_ne_nil hname _)

/-- The text of consecutive chunks determines the chunks. -/
theorem chunks?_inj {cs ds : List Chunk} {id : Nat} (hc : Chunk.AreGenuine id cs)
    (hd : Chunk.AreGenuine id ds)
    (hx : chunks? signatures entries first (cs.map some) = some x)
    (hy : chunks? signatures entries' first (ds.map some) = some y) (h : x.text = y.text) :
    cs = ds := by
  induction cs generalizing ds id first x y with
  | nil =>
    cases hx
    cases ds with
    | nil => rfl
    | cons d ds => exact absurd h.symm (text_ne_nil hy)
  | cons c cs ih =>
    cases ds with
    | nil =>
      cases hy
      exact absurd h (text_ne_nil hx)
    | cons d ds =>
      obtain ⟨text, tail, htext, htail, hx⟩ := exists_of_chunks? hx
      obtain ⟨text', tail', htext', htail', hy⟩ := exists_of_chunks? hy
      rw [hx, hy] at h
      obtain ⟨rfl, htails⟩ := chunk?_append_inj (hc 0 c rfl) (hd 0 d rfl) htext htext'
        (List.append_cancel_left h)
      rw [ih hc.tail hd.tail htail htail' htails]

end

end Listing

/-- The entries of a compiled program are the chunks that are not pushed, in ascending order, so
programs with the same chunks have the same entries. -/
theorem entries_eq_of_compile {es fs : List Expr} {p q : Program} (hp : compile es = .ok p)
    (hq : compile fs = .ok q) (h : p.chunks = q.chunks) : p.entries = q.entries := by
  have hascending {forms : List Expr} {r : Program} (hr : compile forms = .ok r) :
      r.entries.Pairwise (· < ·) := by
    rw [congrArg Program.entries (eq_of_compile hr), List.pairwise_map]
    exact (Expr.pairwise_places 0 forms).imp Int.ofNat_lt.2
  have hcount {forms : List Expr} {r : Program} (hr : compile forms = .ok r) :
      (Expr.nodesAll forms).length = r.chunks.length := by
    rw [congrArg Program.chunks (eq_of_compile hr), List.length_map, List.length_mapIdx]
  have htargets : p.targets = q.targets := by
    unfold Program.targets
    rw [h]
  have hp' := perm_of_compile hp
  have hq' := perm_of_compile hq
  rw [hcount hp, htargets, h, ← hcount hq] at hp'
  have hperm : p.entries.Perm q.entries :=
    (List.perm_append_right_iff q.targets).1 (hp'.trans hq'.symm)
  refine hperm.eq_of_pairwise ?_ (hascending hp) (hascending hq)
  intro i j _ _ hij hji
  omega

namespace Listing

/-- The program of a source has a listing, which determines the program. -/
theorem ofProgram?_eq_iff (signatures : Signatures) {a b : Bytes} {es fs : List Expr}
    {p q : Program} (ha : parse a = .ok es) (hp : compile es = .ok p) (hb : parse b = .ok fs)
    (hq : compile fs = .ok q) :
    ∃ x y : Bytes, ofProgram? signatures (some p) = some { text := x } ∧
      ofProgram? signatures (some q) = some { text := y } ∧ (x = y ↔ p = q) := by
  have hlisted {source : Bytes} {forms : List Expr} {r : Program} (h : parse source = .ok forms)
      (hr : compile forms = .ok r) : ∃ x, ofProgram? signatures (some r) = some { text := x } := by
    have hsolid := Expr.areSolid_of_areProper forms (areProper_of_parse h)
    obtain ⟨⟨x, error⟩, hx, herror⟩ := @exists_chunks? signatures r.chunks
      (Program.isSolid_of_isVerified (isVerified_of_compile hr hsolid)) r.entries true
    cases herror
    exact ⟨x, hx⟩
  obtain ⟨x, hx⟩ := hlisted ha hp
  obtain ⟨y, hy⟩ := hlisted hb hq
  refine ⟨x, y, hx, hy, ?_⟩
  constructor
  · intro hxy
    obtain ⟨cs, hcs, hgenuine⟩ := areGenuine_of_compile ha hp
    obtain ⟨ds, hds, hgenuine'⟩ := areGenuine_of_compile hb hq
    have hx' : chunks? signatures p.entries true (cs.map some) = some { text := x } := hcs ▸ hx
    have hy' : chunks? signatures q.entries true (ds.map some) = some { text := y } := hds ▸ hy
    have hchunks : p.chunks = q.chunks := by
      rw [hcs, hds, chunks?_inj hgenuine hgenuine' hx' hy' hxy]
    have hentries := entries_eq_of_compile hp hq hchunks
    obtain ⟨chunks, entries⟩ := p
    cases hchunks
    cases hentries
    rfl
  · rintro rfl
    cases hx.symm.trans hy
    rfl

/-- A string that imitates the end of its line and another chunk. -/
theorem ofProgram?_eq_iff_imitated_chunk :
    let text := ascii "a\"\n\nchunk 1 [entry] (ops=0)\n"
    let imitation := ascii "\"a\\\"\\n\\nchunk 1 [entry] (ops=0)\\n\""
    let es : List Expr := [.static (.string text) {}]
    let p : Program := ⟨[some (.onLine 0 0 [.immediate (.string text)])], [0]⟩
    let original := ascii "\"a\" ()"
    let fs : List Expr := [.static (.string (ascii "a")) {}, .empty ⟨4, 0, 4⟩]
    let q : Program :=
      ⟨[some (.onLine 0 0 [.immediate (.string (ascii "a"))]), some { id := 1 }], [0, 1]⟩
    parse imitation = .ok es ∧ compile es = .ok p ∧
      parse original = .ok fs ∧ compile fs = .ok q ∧
      ∃ x y : Bytes, ofProgram? [] (some p) = some { text := x } ∧
        ofProgram? [] (some q) = some { text := y } ∧ x ≠ y := by
  intro text imitation es p original fs q
  have ha : parse imitation = .ok es := by decide +kernel
  have hp : compile es = .ok p := by decide +kernel
  have hb : parse original = .ok fs := by decide +kernel
  have hq : compile fs = .ok q := by decide +kernel
  have hne : p ≠ q := by decide +kernel
  obtain ⟨x, y, hx, hy, hiff⟩ := ofProgram?_eq_iff [] ha hp hb hq
  exact ⟨ha, hp, hb, hq, x, y, hx, hy, fun hxy => hne (hiff.1 hxy)⟩

end Listing

end MiniScheme
