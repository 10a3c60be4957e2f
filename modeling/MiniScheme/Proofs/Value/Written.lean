import MiniScheme.Proofs.Text.Quoted
import MiniScheme.Proofs.Token.Numeral
import MiniScheme.Proofs.Value.Equality

/-! Written values. Except for symbols, which may be spelt like anything, the written form
determines the value, at any depth of nesting. -/
namespace MiniScheme

open Text (encode first?)

/-- What follows a written value does not extend a numeral. -/
def Ends (rest : Bytes) : Prop :=
  ∀ c ∈ first? rest, Text.isDigit c = false

theorem ends_nil : Ends [] := by
  intro c hc
  cases hc

theorem ends_encode {c : Char} (h : Text.isDigit c = false) (rest : Bytes) :
    Ends (encode c ++ rest) := by
  intro d hd
  rw [Text.first?_encode] at hd
  cases hd
  exact h

theorem ends_blank (rest : Bytes) : Ends (0x20 :: rest) :=
  ends_encode (c := ' ') rfl rest

theorem ends_close (rest : Bytes) : Ends (0x29 :: rest) :=
  ends_encode (c := ')') rfl rest

theorem Text.exists_decimal_eq_cons (n : Nat) :
    ∃ b rest, decimal n = b :: rest ∧ 0x30 ≤ b.toNat ∧ b.toNat ≤ 0x39 := by
  obtain ⟨c, w, hw⟩ := List.exists_cons_of_ne_nil (Word.ofNat_ne_nil n)
  have hc : 48 ≤ c.1.toNat ∧ c.1.toNat ≤ 57 := by
    simpa [isDigit, Char.le_def, UInt32.le_iff_toNat_le] using c.2
  refine ⟨c.1.toNat.toUInt8, Word.spelling w, ?_, ?_⟩
  · rw [← Word.spelling_ofNat, hw, Word.spelling_cons, Word.encode_of_isDigit c.2]
    rfl
  · rw [toNat_toUInt8 (by omega)]
    exact hc

theorem Bytes.join_cons (separator part : Bytes) (parts : List Bytes) :
    join separator (part :: parts) = part ++ parts.flatMap (separator ++ ·) := by
  induction parts generalizing part with
  | nil => simp [join]
  | cons next parts ih =>
    rw [join, ih, List.flatMap_cons, List.append_assoc, List.append_assoc]
    simp

section

variable {c d s t : Bytes}

def moreBytes (content : Bytes) : Bytes :=
  content.flatMap fun b => 0x20 :: Text.decimal b.toNat

theorem moreBytes_cons (b : UInt8) (content : Bytes) :
    moreBytes (b :: content) = 0x20 :: (Text.decimal b.toNat ++ moreBytes content) := rfl

theorem ends_moreBytes (content rest : Bytes) : Ends (moreBytes content ++ 0x29 :: rest) := by
  cases content with
  | nil => exact ends_close rest
  | cons b content => exact ends_blank _

theorem moreBytes_append_inj (h : moreBytes c ++ 0x29 :: s = moreBytes d ++ 0x29 :: t) :
    c = d ∧ s = t := by
  induction c generalizing d with
  | nil =>
    cases d with
    | nil => exact ⟨rfl, (List.cons.inj h).2⟩
    | cons b d => exact absurd (List.cons.inj h).1 (by decide)
  | cons a c ih =>
    cases d with
    | nil => exact absurd (List.cons.inj h).1 (by decide)
    | cons b d =>
      rw [moreBytes_cons, moreBytes_cons, List.cons_append, List.cons_append, List.append_assoc,
        List.append_assoc] at h
      obtain ⟨hab, hrest⟩ :=
        Text.decimal_append_inj (ends_moreBytes c s) (ends_moreBytes d t) (List.cons.inj h).2
      obtain ⟨rfl, hst⟩ := ih hrest
      exact ⟨by rw [UInt8.toNat_inj.1 hab], hst⟩

def innerBytes (content : Bytes) : Bytes :=
  Bytes.join (ascii " ") (content.map fun b => Text.decimal b.toNat)

theorem innerBytes_cons (b : UInt8) (content : Bytes) :
    innerBytes (b :: content) = Text.decimal b.toNat ++ moreBytes content := by
  unfold innerBytes moreBytes
  rw [List.map_cons, Bytes.join_cons, List.flatMap_map]
  rfl

theorem innerBytes_cons_ne_close (b : UInt8) :
    innerBytes (b :: c) ++ s ≠ 0x29 :: t := by
  obtain ⟨digit, rest, hdigits, hlow, -⟩ := Text.exists_decimal_eq_cons b.toNat
  rw [innerBytes_cons, hdigits]
  intro h
  obtain ⟨rfl, -⟩ := List.cons.inj h
  exact absurd hlow (by decide)

theorem innerBytes_append_inj (h : innerBytes c ++ 0x29 :: s = innerBytes d ++ 0x29 :: t) :
    c = d ∧ s = t := by
  cases c with
  | nil =>
    cases d with
    | nil => exact ⟨rfl, (List.cons.inj h).2⟩
    | cons b d => exact absurd h.symm (innerBytes_cons_ne_close b)
  | cons a c =>
    cases d with
    | nil => exact absurd h (innerBytes_cons_ne_close a)
    | cons b d =>
      rw [innerBytes_cons, innerBytes_cons, List.append_assoc, List.append_assoc] at h
      obtain ⟨hab, hrest⟩ := Text.decimal_append_inj (ends_moreBytes c s) (ends_moreBytes d t) h
      obtain ⟨rfl, hst⟩ := moreBytes_append_inj hrest
      exact ⟨by rw [UInt8.toNat_inj.1 hab], hst⟩

end

namespace Value

/-- Every part of the value has a form of its own. A symbol may be spelt like anything, a character
that is no code point is written as another one, and a hollow pair has no text. -/
def isPlain : Value → Bool
  | null | eof | boolean _ | number _ | string _ | bytes _ => true
  | char code => decide (0 ≤ code ∧ code.toNat.isValidChar)
  | pair left right => left.isPlain && right.isPlain
  | symbol _ | hollow | unknown _ => false

theorem isPlain_pair {left right : Value} :
    (pair left right).isPlain ↔ left.isPlain ∧ right.isPlain := by
  simp [isPlain]

theorem isSolid_of_isPlain {v : Value} (h : v.isPlain) : v.isSolid := by
  induction v with
  | pair left right ihl ihr =>
    obtain ⟨hl, hr⟩ := isPlain_pair.1 h
    exact isSolid_pair.2 ⟨ihl hl, ihr hr⟩
  | hollow => cases h
  | null | eof | boolean | number | string | symbol | char | bytes | unknown => rfl

theorem charOf_inj {a b : Int} (ha : (char a).isPlain) (hb : (char b).isPlain)
    (h : Text.charOf a = Text.charOf b) : a = b := by
  simp only [isPlain, decide_eq_true_eq] at ha hb
  unfold Text.charOf at h
  rw [if_pos ha, if_pos hb] at h
  have hcode := congrArg Char.toNat h
  rw [Text.toNat_ofNat ha.2, Text.toNat_ofNat hb.2] at hcode
  omega

/-- The continuation of a list after an element. -/
inductive GoesOn : Value → Bytes → Prop where
  | ended : GoesOn null [0x29]
  | element {left right : Value} {h t : Bytes} (hl : left.render .written = some h)
      (hr : GoesOn right t) : GoesOn (pair left right) (0x20 :: (h ++ t))
  | dotted {v : Value} {x : Bytes} (hv : ∀ left right, v ≠ pair left right)
      (hx : v.render .written = some x) : GoesOn v (0x20 :: 0x2E :: 0x20 :: (x ++ [0x29]))

theorem goesOn_of_renderTail {v : Value} {x : Bytes} (h : v.renderTail .written = some x) :
    GoesOn v x := by
  induction v generalizing x with
  | null => cases h; exact .ended
  | pair left right ihl ihr =>
    simp only [renderTail, Option.bind_eq_bind, Option.bind_eq_some_iff] at h
    obtain ⟨head, hl, tail, hr, hx⟩ := h
    cases hx
    exact .element hl (ihr hr)
  | hollow => cases h
  | eof | boolean | number | string | symbol | char | bytes | unknown =>
    cases h
    exact .dotted (fun _ _ => Value.noConfusion) rfl

theorem exists_of_render_pair {left right : Value} {x : Bytes}
    (h : (pair left right).render .written = some x) :
    ∃ head tail, left.render .written = some head ∧ GoesOn right tail ∧
      x = 0x28 :: (head ++ tail) := by
  simp only [render, Option.bind_eq_bind, Option.bind_eq_some_iff, Option.some.injEq] at h
  obtain ⟨head, hl, tail, hr, rfl⟩ := h
  exact ⟨head, tail, hl, goesOn_of_renderTail hr, rfl⟩

theorem GoesOn.ends {v : Value} {x : Bytes} (h : GoesOn v x) (rest : Bytes) : Ends (x ++ rest) := by
  cases h with
  | ended => exact ends_close rest
  | element | dotted => exact ends_blank _

/-- The type of a written value, by its first two bytes. -/
def typeAt (text : Bytes) : Bytes :=
  if text[0]? = some 0x28 then
    if text[1]? = some 0x29 then ascii "null" else ascii "pair"
  else if text[0]? = some 0x22 then ascii "string"
  else if text[0]? = some 0x23 then
    if text[1]? = some 0x3C then ascii "eof"
    else if text[1]? = some 0x5C then ascii "char"
    else if text[1]? = some 0x75 then ascii "bytevector"
    else ascii "boolean"
  else ascii "number"

/-- No written value starts like the end or the dot of a list. -/
theorem exists_eq_cons_of_render {v : Value} {x : Bytes} (hv : v.isPlain)
    (hx : v.render .written = some x) : ∃ b rest, x = b :: rest ∧ b ≠ 0x29 ∧ b ≠ 0x2E := by
  cases v with
  | pair left right =>
    obtain ⟨h, t, -, -, rfl⟩ := exists_of_render_pair hx
    exact ⟨0x28, _, rfl, by decide, by decide⟩
  | number n =>
    cases hx
    obtain ⟨b, rest, hdigits, hlow, -⟩ := Text.exists_decimal_eq_cons n.toNat
    refine ⟨b, rest, hdigits, ?_, ?_⟩
    · rintro rfl
      exact absurd hlow (by decide)
    · rintro rfl
      exact absurd hlow (by decide)
  | boolean b =>
    cases hx
    cases b <;> exact ⟨0x23, _, rfl, by decide, by decide⟩
  | null => cases hx; exact ⟨0x28, _, rfl, by decide, by decide⟩
  | string text => cases hx; exact ⟨0x22, _, rfl, by decide, by decide⟩
  | eof | char | bytes => cases hx; exact ⟨0x23, _, rfl, by decide, by decide⟩
  | symbol | hollow | unknown => cases hv

/-- The first two bytes of a written value determine its type. -/
theorem typeAt_append {v : Value} {x : Bytes} (hv : v.isPlain) (hx : v.render .written = some x)
    (rest : Bytes) : typeAt (x ++ rest) = v.typeName := by
  cases v with
  | pair left right =>
    obtain ⟨hl, -⟩ := isPlain_pair.1 hv
    obtain ⟨h, t, hh, -, rfl⟩ := exists_of_render_pair hx
    obtain ⟨b, more, rfl, hclose, -⟩ := exists_eq_cons_of_render hl hh
    simp [typeAt, typeName, hclose]
  | number n =>
    cases hx
    obtain ⟨b, more, hdigits, hlow, -⟩ := Text.exists_decimal_eq_cons n.toNat
    have hne (b' : UInt8) (h : b'.toNat < 0x30) : b ≠ b' := by
      rintro rfl
      omega
    simp [typeAt, typeName, atomText, hdigits, hne 0x28 (by decide), hne 0x22 (by decide),
      hne 0x23 (by decide)]
  | boolean b =>
    cases hx
    cases b <;> rfl
  | null | eof | string | char | bytes => cases hx; rfl
  | symbol | hollow | unknown => cases hv

/-- The written forms of atoms are injective where no digit follows them. -/
theorem render_append_inj_of_atom {a b : Value} {x y s t : Bytes} (ha : a.isPlain) (hb : b.isPlain)
    (hatom : ∀ left right, a ≠ pair left right) (hx : a.render .written = some x)
    (hy : b.render .written = some y) (hs : Ends s) (ht : Ends t) (h : x ++ s = y ++ t) :
    a = b ∧ s = t := by
  have hkind : a.typeName = b.typeName := by
    rw [← typeAt_append ha hx s, h, typeAt_append hb hy]
  cases a with
  | null =>
    cases b with
    | null => cases hx; cases hy; exact ⟨rfl, List.append_cancel_left h⟩
    | _ => simp +decide [typeName] at hkind
  | eof =>
    cases b with
    | eof => cases hx; cases hy; exact ⟨rfl, List.append_cancel_left h⟩
    | _ => simp +decide [typeName] at hkind
  | boolean p =>
    cases b with
    | boolean q =>
      cases hx
      cases hy
      obtain rfl : p = q := by
        cases p <;> cases q
        · rfl
        · simp [atomText, ascii] at h
        · simp [atomText, ascii] at h
        · rfl
      exact ⟨rfl, List.append_cancel_left h⟩
    | _ => simp +decide [typeName] at hkind
  | number n =>
    cases b with
    | number m =>
      cases hx
      cases hy
      obtain ⟨hnm, hst⟩ := Text.decimal_append_inj hs ht h
      exact ⟨congrArg number (UInt64.toNat_inj.1 hnm), hst⟩
    | _ => simp +decide [typeName] at hkind
  | string text =>
    cases b with
    | string text' =>
      cases hx
      cases hy
      obtain ⟨htext, hst⟩ := Text.quote_append_inj h
      exact ⟨congrArg string htext, hst⟩
    | _ => simp +decide [typeName] at hkind
  | char code =>
    cases b with
    | char code' =>
      cases hx
      cases hy
      simp only [atomText, List.append_assoc] at h
      obtain ⟨hchar, hst⟩ := Text.encode_append_inj (List.append_cancel_left h)
      exact ⟨congrArg char (charOf_inj ha hb hchar), hst⟩
    | _ => simp +decide [typeName] at hkind
  | bytes content =>
    cases b with
    | bytes content' =>
      cases hx
      cases hy
      simp only [atomText, List.append_assoc] at h
      obtain ⟨hcontent, hst⟩ := innerBytes_append_inj (List.append_cancel_left h)
      exact ⟨congrArg bytes hcontent, hst⟩
    | _ => simp +decide [typeName] at hkind
  | pair left right => exact absurd rfl (hatom left right)
  | symbol | hollow | unknown => cases ha

/-- The written form determines the value, where no digit follows it. -/
def WriteInj (a : Value) : Prop :=
  ∀ {b : Value} {x y s t : Bytes}, b.isPlain → a.render .written = some x →
    b.render .written = some y → Ends s → Ends t → x ++ s = y ++ t → a = b ∧ s = t

/-- The continuation of a list by the value determines the value, whatever follows it. -/
def TailInj (a : Value) : Prop :=
  ∀ {b : Value} {x y s t : Bytes}, b.isPlain → GoesOn a x → GoesOn b y → x ++ s = y ++ t →
    a = b ∧ s = t

section

variable {a b left right left' right' : Value} {h h' r r' s t : Bytes}

theorem pair_append_inj (hleft : WriteInj left) (hright : TailInj right)
    (hb : (pair left' right').isPlain) (hh : left.render .written = some h) (hr : GoesOn right r)
    (hh' : left'.render .written = some h') (hr' : GoesOn right' r')
    (heq : h ++ (r ++ s) = h' ++ (r' ++ t)) : pair left right = pair left' right' ∧ s = t := by
  obtain ⟨hl', hr''⟩ := isPlain_pair.1 hb
  obtain ⟨rfl, hrest⟩ := hleft hl' hh hh' (hr.ends s) (hr'.ends t) heq
  obtain ⟨rfl, hst⟩ := hright hr'' hr hr' hrest
  exact ⟨rfl, hst⟩

theorem writeInj_pair (ha : (pair left right).isPlain) (hleft : WriteInj left)
    (hright : TailInj right) : WriteInj (pair left right) := by
  intro b x y s t hb hx hy hs ht heq
  have hkind : (pair left right).typeName = b.typeName := by
    rw [← typeAt_append ha hx s, heq, typeAt_append hb hy]
  cases b with
  | pair left' right' =>
    obtain ⟨h, r, hh, hr, rfl⟩ := exists_of_render_pair hx
    obtain ⟨h', r', hh', hr', rfl⟩ := exists_of_render_pair hy
    rw [List.cons_append, List.cons_append, List.append_assoc, List.append_assoc] at heq
    exact pair_append_inj hleft hright hb hh hr hh' hr' (List.cons.inj heq).2
  | hollow => cases hb
  | _ => simp +decide [typeName] at hkind

/-- An element is distinct from the dot of a list. -/
theorem append_ne_dot (ha : a.isPlain) (hh : a.render .written = some h) : h ++ s ≠ 0x2E :: t := by
  obtain ⟨b, rest, rfl, -, hdot⟩ := exists_eq_cons_of_render ha hh
  intro heq
  exact hdot (List.cons.inj heq).1

theorem tailInj_of_writeInj (ha : a.isPlain) (hwrite : WriteInj a)
    (hparts : ∀ left right, a = pair left right → WriteInj left ∧ TailInj right) :
    TailInj a := by
  intro b x y s t hb hx hy heq
  cases hx with
  | ended =>
    cases hy with
    | ended => exact ⟨rfl, (List.cons.inj heq).2⟩
    | element | dotted => exact absurd (List.cons.inj heq).1 (by decide)
  | @element left right h r hh hr =>
    obtain ⟨hleft, hright⟩ := hparts left right rfl
    cases hy with
    | ended => exact absurd (List.cons.inj heq).1 (by decide)
    | @element left' right' h' r' hh' hr' =>
      rw [List.cons_append, List.cons_append, List.append_assoc, List.append_assoc] at heq
      exact pair_append_inj hleft hright hb hh hr hh' hr' (List.cons.inj heq).2
    | dotted hv' hy' =>
      rw [List.cons_append, List.append_assoc] at heq
      exact absurd (List.cons.inj heq).2 (append_ne_dot (isPlain_pair.1 ha).1 hh)
  | @dotted _ x hv hx =>
    cases hy with
    | ended => exact absurd (List.cons.inj heq).1 (by decide)
    | @element left' right' h' r' hh' hr' =>
      have hrest := (List.append_assoc h' r' t).symm.trans (List.cons.inj heq).2.symm
      exact absurd hrest (append_ne_dot (isPlain_pair.1 hb).1 hh')
    | @dotted _ y hv' hy =>
      have hrest : x ++ 0x29 :: s = y ++ 0x29 :: t := by simpa using heq
      obtain ⟨rfl, hst⟩ := hwrite hb hx hy (ends_close s) (ends_close t) hrest
      exact ⟨rfl, (List.cons.inj hst).2⟩

theorem writeInj_of_atom (ha : a.isPlain) (hatom : ∀ left right, a ≠ pair left right) :
    WriteInj a ∧ TailInj a := by
  have hwrite : WriteInj a := fun hb hx hy hs ht h =>
    render_append_inj_of_atom ha hb hatom hx hy hs ht h
  exact ⟨hwrite, tailInj_of_writeInj ha hwrite fun left right h => absurd h (hatom left right)⟩

end

/-- By induction on pairs: the left part and the continuation of the list determine a pair. -/
theorem writeInj_of_isPlain {a : Value} (ha : a.isPlain) : WriteInj a ∧ TailInj a := by
  induction a with
  | pair left right ihl ihr =>
    obtain ⟨hl, hr⟩ := isPlain_pair.1 ha
    have hleft : WriteInj left := (ihl hl).1
    have hright : TailInj right := (ihr hr).2
    have hwrite : WriteInj (pair left right) := writeInj_pair ha hleft hright
    refine ⟨hwrite, tailInj_of_writeInj ha hwrite ?_⟩
    intro left' right' h
    cases h
    exact ⟨hleft, hright⟩
  | _ => exact writeInj_of_atom ha fun _ _ => Value.noConfusion

theorem equal_self {v : Value} (h : v.isPlain) : v.equal v := by
  induction v with
  | pair left right ihl ihr =>
    obtain ⟨hl, hr⟩ := isPlain_pair.1 h
    rw [equal, ihl hl, ihr hr]
    rfl
  | null | eof => rfl
  | boolean | number | string | char | bytes => simp [equal]
  | symbol | hollow | unknown => cases h

/-- Plain values have written forms, and these are equal iff the values are. -/
theorem written_eq_iff_equal {a b : Value} (ha : a.isPlain) (hb : b.isPlain) :
    ∃ x y, a.write? = some x ∧ b.write? = some y ∧ (x = y ↔ a.equal b) := by
  obtain ⟨x, hx⟩ := Option.isSome_iff_exists.1 ((write?_isSome_iff a).2 (isSolid_of_isPlain ha))
  obtain ⟨y, hy⟩ := Option.isSome_iff_exists.1 ((write?_isSome_iff b).2 (isSolid_of_isPlain hb))
  refine ⟨x, y, hx, hy, ?_, ?_⟩
  · rintro rfl
    obtain ⟨rfl, -⟩ := (writeInj_of_isPlain ha).1 hb hx hy ends_nil ends_nil rfl
    exact equal_self ha
  · intro h
    obtain rfl := eq_of_equal h
    exact Option.some.inj (hx.symm.trans hy)

/-- The space character differs from the separator between elements, and a spelt-out escape from the
byte it denotes. -/
theorem written_eq_iff_equal_blanks :
    let a : Value := list [char 0x20, string [0x80]] (number 12)
    let b : Value := list [char 0x20, string (ascii "\\x80"), number 12]
    a.isPlain ∧ b.isPlain ∧ a.write? = some (ascii "(#\\  \"\\x80\" . 12)") ∧
      b.write? = some (ascii "(#\\  \"\\\\x80\" 12)") ∧ ¬a.equal b := by
  intro a b
  have ha : a.isPlain := by decide
  have hb : b.isPlain := by decide
  have hx : a.write? = some (ascii "(#\\  \"\\x80\" . 12)") := by decide +kernel
  have hy : b.write? = some (ascii "(#\\  \"\\\\x80\" 12)") := by decide +kernel
  obtain ⟨x, y, hx', hy', hiff⟩ := written_eq_iff_equal ha hb
  refine ⟨ha, hb, hx, hy, ?_⟩
  rw [hx] at hx'
  rw [hy] at hy'
  cases hx'
  cases hy'
  rw [← hiff]
  decide

end Value

end MiniScheme
