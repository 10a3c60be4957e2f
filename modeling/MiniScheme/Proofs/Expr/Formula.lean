import MiniScheme.Proofs.Expr.Lines
import MiniScheme.Proofs.Native.Exact
import MiniScheme.Proofs.Token.Numeral

/-! Formulas: terms over numerals and operators, and comparisons of two terms. Their values are
unbounded integers, and their sources are sequences of lexemes. -/
namespace MiniScheme

def Value.Denotes (n : Int) (v : Value) : Prop :=
  ∃ w : UInt64, v = .number w ∧ w.toNat = n

def Lexeme.unspaced (ls : List Lexeme) : List Lexeme :=
  ls.filter fun l => l.kind ≠ .blank

inductive Term where
  | numeral (n : UInt64)
  | apply (op : Operator) (left right : Term)
deriving DecidableEq

inductive Formula where
  | term (t : Term)
  | comparison (c : Comparison) (left right : Term)

namespace Term

def exact : Term → Int
  | numeral n => n.toNat
  | apply op left right => op.exact left.exact right.exact

def depth : Term → Nat
  | numeral _ => 1
  | apply _ left right => max left.depth right.depth + 1

def size : Term → Nat
  | numeral _ => 1
  | apply _ left right => left.size + right.size + 1

/-- The subterms in postorder, each with its number in preorder, where the term itself has the
number `id`. -/
def postorder (id : Nat) : Term → List (Nat × Term)
  | numeral n => [(id, numeral n)]
  | apply op left right =>
    left.postorder (id + 1) ++ right.postorder (id + 1 + left.size) ++ [(id, apply op left right)]

/-- `t.IsRead e`: the tree `e` represents the term, at any positions. -/
inductive IsRead : Term → Expr → Prop where
  | numeral {n : UInt64} {pos : Position} : IsRead (.numeral n) (.static (.number n) pos)
  | apply {op : Operator} {left right : Term} {a b : Expr} {pos : Position}
      (ha : IsRead left a) (hb : IsRead right b) :
      IsRead (.apply op left right) (.call op.native.name [a, b] pos)

/-- `Spelt ls t`: the lexemes `ls`, without blanks, spell the term. Numerals may have leading
zeros. -/
inductive Spelt : List Lexeme → Term → Prop where
  | numeral {l : Lexeme} {n : UInt64} (hl : l.kind = .integer n) : Spelt [l] (.numeral n)
  | apply {op : Operator} {left right : Term} {name : Lexeme} {ls ms : List Lexeme}
      (hk : name.kind = .identifier) (hn : name.literal = op.native.name)
      (hl : Spelt ls left) (hr : Spelt ms right) :
      Spelt (.opening :: name :: (ls ++ ms ++ [.closing])) (.apply op left right)

def text : Term → Bytes
  | numeral n => Text.decimal n.toNat
  | apply op left right =>
    ascii "(" ++ op.native.name ++ ascii " " ++ left.text ++ ascii " " ++ right.text ++ ascii ")"

end Term

namespace Formula

def depth : Formula → Nat
  | term t => t.depth
  | comparison _ left right => max left.depth right.depth + 1

/-- All terms of the formula, in postorder and numbered in preorder. -/
def terms : Formula → List (Nat × Term)
  | term t => t.postorder 0
  | comparison _ left right => left.postorder 1 ++ right.postorder (1 + left.size)

/-- The first term that is out of range. -/
def excess? (f : Formula) : Option (Nat × Term) :=
  f.terms.find? fun t => !isNumber t.2.exact

/-- `f.HasValue v`: `v` is the exact value of the formula. -/
def HasValue : Formula → Value → Prop
  | term t, v => v.Denotes t.exact
  | comparison c left right, v => v = .boolean (c.exact left.exact right.exact)

inductive IsRead : Formula → Expr → Prop where
  | term {t : Term} {e : Expr} (h : t.IsRead e) : IsRead (.term t) e
  | comparison {c : Comparison} {left right : Term} {a b : Expr} {pos : Position}
      (ha : left.IsRead a) (hb : right.IsRead b) :
      IsRead (.comparison c left right) (.call c.native.name [a, b] pos)

inductive Spelt : List Lexeme → Formula → Prop where
  | term {ls : List Lexeme} {t : Term} (h : t.Spelt ls) : Spelt ls (.term t)
  | comparison {c : Comparison} {left right : Term} {name : Lexeme} {ls ms : List Lexeme}
      (hk : name.kind = .identifier) (hn : name.literal = c.native.name)
      (hl : left.Spelt ls) (hr : right.Spelt ms) :
      Spelt (.opening :: name :: (ls ++ ms ++ [.closing])) (.comparison c left right)

/-- `f.IsSource source`: the source spells the formula, with optional blanks between lexemes, and
blanks wherever adjacent lexemes would merge. -/
def IsSource (f : Formula) (source : Bytes) : Prop :=
  ∃ ls : List Lexeme, (ls.IsChain fun l m => l.mayPrecede m) ∧ source = Lexeme.spellAll ls ∧
    Spelt (Lexeme.unspaced ls) f

def text : Formula → Bytes
  | term t => t.text
  | comparison c left right =>
    ascii "(" ++ c.native.name ++ ascii " " ++ left.text ++ ascii " " ++ right.text ++ ascii ")"

end Formula

namespace Lexeme

def said (l : Lexeme) : Token.Kind × Bytes :=
  (l.kind, l.literal)

theorem map_contents (offset : Int) (ls : List Lexeme) :
    (contents offset ls).map (fun content => (content.1, content.2.1)) = ls.map said := by
  induction ls generalizing offset with
  | nil => rfl
  | cons l ls ih =>
    rw [contents, List.map_cons, ih]
    rfl

/-- The tokens of a source have the content of its lexemes, up to blanks. -/
theorem exists_tokenize {ls : List Lexeme} (h : ls.IsChain fun l m => l.mayPrecede m) :
    ∃ ts, tokenize (spellAll ls) = (ts, none) ∧
      (Expr.withoutBlanks ts).map Token.said = (unspaced ls).map said := by
  obtain ⟨ts, pos, hs, hts⟩ := Cursor.exists_scans_spellAll h {}
  refine ⟨ts, tokenize_eq_iff.2 ⟨pos, [], hs, .finished⟩, ?_⟩
  have hsaid : ts.map Token.said = ls.map said := by
    rw [← map_contents _ ls, ← hts, List.map_map]
    rfl
  calc (Expr.withoutBlanks ts).map Token.said
      = (ts.map Token.said).filter fun said => said.1 ≠ .blank := by
        rw [List.filter_map]
        rfl
    _ = (ls.map said).filter fun said => said.1 ≠ .blank := by rw [hsaid]
    _ = (unspaced ls).map said := List.filter_map

end Lexeme

theorem Expr.exists_form_call {P Q : Expr → Prop} {name : Lexeme} {ls ms : List Lexeme}
    {ts : List Token} (hk : name.kind = .identifier) (hd : name.literal ≠ ascii "define")
    (hts : ts.map Token.said =
      (Lexeme.opening :: name :: (ls ++ ms ++ [.closing])).map Lexeme.said)
    (hl : ∀ us, us.map Token.said = ls.map Lexeme.said → ∃ a, Expr.Form us a ∧ P a)
    (hr : ∀ us, us.map Token.said = ms.map Lexeme.said → ∃ b, Expr.Form us b ∧ Q b) :
    ∃ a b pos, Expr.Form ts (.call name.literal [a, b] pos) ∧ P a ∧ Q b := by
  rw [List.map_cons, List.map_cons, List.map_append, List.map_append] at hts
  obtain ⟨o, us, rfl, ho, hus⟩ := List.map_eq_cons_iff.1 hts
  obtain ⟨h, vs, rfl, hh, hvs⟩ := List.map_eq_cons_iff.1 hus
  obtain ⟨args, closing, rfl, hargs, hclosing⟩ := List.map_eq_append_iff.1 hvs
  obtain ⟨left, right, rfl, hleft, hright⟩ := List.map_eq_append_iff.1 hargs
  obtain ⟨c, rfl, hc⟩ := List.map_eq_singleton_iff.1 hclosing
  obtain ⟨a, hforma, ha⟩ := hl left hleft
  obtain ⟨b, hformb, hb⟩ := hr right hright
  have hliteral : h.literal = name.literal := congrArg Prod.snd hh
  have hkind : h.kind = .identifier := (congrArg Prod.fst hh).trans hk
  have hforms : Expr.Forms (left ++ right) [a, b] := .cons hforma hformb.single
  refine ⟨a, b, o.pos, ?_, ha, hb⟩
  rw [← hliteral] at hd ⊢
  exact .call (congrArg Prod.fst ho) hkind hd hforms (congrArg Prod.fst hc)

/-- Tokens that spell a term are one form, whose tree represents the term. -/
theorem Term.Spelt.exists_form {t : Term} {ls : List Lexeme} (h : t.Spelt ls) {ts : List Token}
    (hts : ts.map Token.said = ls.map Lexeme.said) : ∃ e, Expr.Form ts e ∧ t.IsRead e := by
  induction h generalizing ts with
  | @numeral l n hl =>
    obtain ⟨u, rfl, hu⟩ := List.map_eq_singleton_iff.1 hts
    have hkind : u.kind = .integer n := (congrArg Prod.fst hu).trans hl
    exact ⟨_, .integer hkind, .numeral⟩
  | @apply op left right name ls ms hk hn hl hr ihl ihr =>
    have hd : name.literal ≠ ascii "define" := by
      rw [hn]
      cases op <;> decide
    obtain ⟨a, b, pos, hform, ha, hb⟩ :=
      Expr.exists_form_call hk hd hts (fun _ => ihl) (fun _ => ihr)
    rw [hn] at hform
    exact ⟨_, hform, .apply ha hb⟩

theorem Formula.Spelt.exists_form {f : Formula} {ls : List Lexeme} (h : f.Spelt ls)
    {ts : List Token} (hts : ts.map Token.said = ls.map Lexeme.said) :
    ∃ e, Expr.Form ts e ∧ f.IsRead e := by
  cases h with
  | term h =>
    obtain ⟨e, hform, he⟩ := h.exists_form hts
    exact ⟨e, hform, .term he⟩
  | @comparison c left right name ls ms hk hn hl hr =>
    have hd : name.literal ≠ ascii "define" := by
      rw [hn]
      cases c <;> decide
    obtain ⟨a, b, pos, hform, ha, hb⟩ :=
      Expr.exists_form_call hk hd hts (fun _ => hl.exists_form) (fun _ => hr.exists_form)
    rw [hn] at hform
    exact ⟨_, hform, .comparison ha hb⟩

/-- Every source of a formula parses to the formula. -/
theorem Formula.IsSource.exists_parse {f : Formula} {source : Bytes} (h : f.IsSource source) :
    ∃ ts e, tokenize source = (ts, none) ∧ parse source = .ok [e] ∧ f.IsRead e := by
  obtain ⟨ls, hchain, rfl, hspelt⟩ := h
  obtain ⟨ts, htokens, hsaid⟩ := Lexeme.exists_tokenize hchain
  obtain ⟨e, hform, he⟩ := hspelt.exists_form hsaid
  refine ⟨ts, e, htokens, ?_, he⟩
  rw [parse_eq_ofTokens htokens]
  exact Expr.ofTokens_iff_forms.2 hform.single

namespace Lexeme

def space : Lexeme :=
  .blank ⟨' ', rfl⟩ []

def spaced (name : Lexeme) (ls ms : List Lexeme) : List Lexeme :=
  [opening, name] ++ space :: (ls ++ space :: (ms ++ [closing]))

/-- Separate lexemes without a blank at either end. -/
structure Compact (ls : List Lexeme) : Prop where
  chain : ls.IsChain fun l m => l.mayPrecede m
  head : ∃ l, ls.head? = some l ∧ l.kind ≠ .blank
  last : ∃ l, ls.getLast? = some l ∧ l.kind ≠ .blank

theorem mayPrecede_space {l : Lexeme} (h : l.kind ≠ .blank) : l.mayPrecede space := by
  cases l with
  | blank => exact absurd rfl h
  | opening | closing | boolean | identifier | integer | string => rfl

theorem space_mayPrecede {l : Lexeme} (h : l.kind ≠ .blank) : space.mayPrecede l := by
  cases l with
  | blank => exact absurd rfl h
  | opening | closing | boolean | identifier | integer | string => rfl

theorem mayPrecede_closing (l : Lexeme) : l.mayPrecede closing := by
  cases l <;> rfl

theorem compact_singleton {l : Lexeme} (h : l.kind ≠ .blank) : Compact [l] :=
  ⟨.singleton l, ⟨l, rfl, h⟩, ⟨l, rfl, h⟩⟩

variable {name : Lexeme} {ls ms : List Lexeme}

theorem Compact.append_space (hl : Compact ls) (hm : Compact ms) :
    Compact (ls ++ space :: ms) := by
  obtain ⟨first, hfirst, hfirst'⟩ := hl.head
  obtain ⟨last, hlast, hlast'⟩ := hl.last
  obtain ⟨next, hnext, hnext'⟩ := hm.head
  obtain ⟨final, hfinal, hfinal'⟩ := hm.last
  refine ⟨?_, ⟨first, ?_, hfirst'⟩, ⟨final, ?_, hfinal'⟩⟩
  · refine List.isChain_append.2 ⟨hl.chain, List.isChain_cons.2 ⟨?_, hm.chain⟩, ?_⟩
    · intro l hmem
      rw [hnext] at hmem
      cases hmem
      exact space_mayPrecede hnext'
    · intro l hmem m hspace
      rw [hlast] at hmem
      cases hmem
      cases hspace
      exact mayPrecede_space hlast'
  · rw [List.head?_append, hfirst]
    rfl
  · rw [List.getLast?_append, List.getLast?_cons, hfinal]
    rfl

theorem Compact.closed (hm : Compact ms) : Compact (ms ++ [closing]) := by
  obtain ⟨first, hfirst, hfirst'⟩ := hm.head
  refine ⟨?_, ⟨first, ?_, hfirst'⟩, ⟨closing, ?_, by decide⟩⟩
  · refine List.isChain_append.2 ⟨hm.chain, .singleton _, ?_⟩
    intro l _ m hmem
    cases hmem
    exact mayPrecede_closing l
  · rw [List.head?_append, hfirst]
    rfl
  · rw [List.getLast?_append]
    rfl

theorem compact_opened (hk : name.kind = .identifier) : Compact [opening, name] :=
  ⟨.cons_cons rfl (.singleton name), ⟨opening, rfl, by decide⟩, ⟨name, rfl, by rw [hk]; decide⟩⟩

theorem compact_spaced (hk : name.kind = .identifier) (hl : Compact ls) (hm : Compact ms) :
    Compact (spaced name ls ms) :=
  (compact_opened hk).append_space (hl.append_space hm.closed)

theorem unspaced_spaced (hk : name.kind = .identifier) :
    unspaced (spaced name ls ms) =
      opening :: name :: (unspaced ls ++ unspaced ms ++ [closing]) := by
  have hopening : opening.kind = .opening := rfl
  have hspace : space.kind = .blank := rfl
  have hclosing : closing.kind = .closing := rfl
  simp [unspaced, spaced, hopening, hspace, hclosing, hk]

theorem spellAll_spaced :
    spellAll (spaced name ls ms) = ascii "(" ++ name.spelling ++ ascii " " ++ spellAll ls ++
      ascii " " ++ spellAll ms ++ ascii ")" := by
  have hopening : opening.spelling = ascii "(" := rfl
  have hspace : space.spelling = ascii " " := rfl
  have hclosing : closing.spelling = ascii ")" := rfl
  simp [spaced, spellAll, hopening, hspace, hclosing]

end Lexeme

theorem Native.exists_identifier {n : Native} (h : n ∈ arithmetic) :
    ∃ l : Lexeme, l.kind = .identifier ∧ l.literal = n.name ∧ l.spelling = n.name := by
  have hname (c : Char) (hc : Token.isInitial c) :
      ∃ l : Lexeme, l.kind = .identifier ∧ l.literal = Text.encode c ∧ l.spelling = Text.encode c :=
    ⟨.identifier ⟨c, hc⟩ [], rfl, List.append_nil _, List.append_nil _⟩
  simp only [arithmetic, List.mem_cons, List.not_mem_nil, or_false] at h
  rcases h with rfl | rfl | rfl | rfl | rfl
  · exact hname '+' (by decide +kernel)
  · exact hname '-' (by decide +kernel)
  · exact hname '*' (by decide +kernel)
  · exact hname '=' (by decide +kernel)
  · exact hname '<' (by decide +kernel)

theorem Term.exists_lexemes (t : Term) :
    ∃ ls, Lexeme.Compact ls ∧ t.text = Lexeme.spellAll ls ∧
      t.Spelt (Lexeme.unspaced ls) := by
  induction t with
  | numeral n =>
    obtain ⟨l, hspelling, hkind⟩ := Lexeme.exists_integer n
    have hblank : l.kind ≠ .blank := by
      rw [hkind]
      exact Token.Kind.noConfusion
    refine ⟨[l], Lexeme.compact_singleton hblank, ?_, ?_⟩
    · rw [Lexeme.spellAll_cons, hspelling]
      exact (List.append_nil _).symm
    · have hsingle : Lexeme.unspaced [l] = [l] := by simp [Lexeme.unspaced, hblank]
      rw [hsingle]
      exact .numeral hkind
  | apply op left right ihl ihr =>
    obtain ⟨ls, hl, hltext, hlspelt⟩ := ihl
    obtain ⟨ms, hm, hmtext, hmspelt⟩ := ihr
    obtain ⟨name, hkind, hliteral, hspelling⟩ := Native.exists_identifier op.native_mem
    refine ⟨Lexeme.spaced name ls ms, Lexeme.compact_spaced hkind hl hm, ?_, ?_⟩
    · rw [Lexeme.spellAll_spaced, hspelling, ← hltext, ← hmtext, text]
    · rw [Lexeme.unspaced_spaced hkind]
      exact .apply hkind hliteral hlspelt hmspelt

/-- Every formula has a source. -/
theorem Formula.isSource_text (f : Formula) : f.IsSource f.text := by
  cases f with
  | term t =>
    obtain ⟨ls, hl, htext, hspelt⟩ := t.exists_lexemes
    exact ⟨ls, hl.chain, htext, .term hspelt⟩
  | comparison c left right =>
    obtain ⟨ls, hl, hltext, hlspelt⟩ := left.exists_lexemes
    obtain ⟨ms, hm, hmtext, hmspelt⟩ := right.exists_lexemes
    obtain ⟨name, hkind, hliteral, hspelling⟩ := Native.exists_identifier c.native_mem
    refine ⟨Lexeme.spaced name ls ms, (Lexeme.compact_spaced hkind hl hm).chain, ?_, ?_⟩
    · rw [Lexeme.spellAll_spaced, hspelling, ← hltext, ← hmtext, text]
    · rw [Lexeme.unspaced_spaced hkind]
      exact .comparison hkind hliteral hlspelt hmspelt

end MiniScheme
