import Mathlib.Data.List.Chain
import MiniScheme.Proofs.Token.Scan

/-! The tokens of a source. Their lexemes tile the source up to its end or to a flaw, and
concatenated lexemes of which no two merge are read back one by one. -/
namespace MiniScheme

/-- The content of a token, without its position. -/
def Token.said (t : Token) : Token.Kind × Bytes :=
  (t.kind, t.literal)

def Token.content (t : Token) : Token.Kind × Bytes × Int :=
  (t.kind, t.literal, t.pos.offset)

namespace Lexeme

def token (l : Lexeme) (pos : Position) : Token :=
  ⟨l.kind, l.literal, pos⟩

def contents (offset : Int) : List Lexeme → List (Token.Kind × Bytes × Int)
  | [] => []
  | l :: ls => (l.kind, l.literal, offset) :: contents (offset + l.spelling.length) ls

/-- `m` may follow `l` directly without a change to either. -/
def mayPrecede : (l m : Lexeme) → Bool
  | blank .., blank .. => false
  | integer .., integer .. => false
  | identifier .., identifier .. => false
  | identifier .., integer .. => false
  | _, _ => true

theorem prolongs_first {l m : Lexeme} (h : l.mayPrecede m) : l.prolongs m.first = false := by
  cases l with
  | opening | closing | boolean | string => rfl
  | blank =>
    cases m with
    | opening | closing | boolean | string => rfl
    | blank => cases h
    | identifier c => exact Token.isSpace_of_isInitial c.2
    | integer c => exact Token.isSpace_of_isDigit c.2
  | identifier =>
    cases m with
    | opening | closing | boolean | string => rfl
    | blank c => exact Token.isSubsequent_of_isSpace c.2
    | identifier => cases h
    | integer => cases h
  | integer =>
    cases m with
    | opening | closing | boolean | string => rfl
    | blank c => exact Token.isDigit_of_isSpace c.2
    | identifier c => exact Token.isDigit_of_isInitial c.2
    | integer => cases h

theorem stopsAt_nil (l : Lexeme) : l.StopsAt [] := by
  intro c hc
  cases hc

theorem stopsAt_spelling {l m : Lexeme} (h : l.mayPrecede m) (rest : Bytes) :
    l.StopsAt (m.spelling ++ rest) := by
  intro c hc
  rw [m.first?_spelling] at hc
  cases hc
  exact prolongs_first h

end Lexeme

namespace Cursor

theorem Reads.length_lt {c next : Cursor} {t : Token} (h : c.Reads t next) :
    next.rest.length < c.rest.length := by
  cases h with
  | @lexeme kind lexeme hne hl =>
    have hpos := List.length_pos_iff.2 hne
    have hle := hl.length_le
    simp only [skip, List.length_drop]
    omega
  | @string g rest text next hc hs =>
    have hle := (suffix_of_readString hs).length_le
    rw [hc, List.length_cons]
    omega

theorem take_eq_all {c : Cursor} {count : Nat} (h : c.rest.length < count) :
    c.take count = c.all := by
  induction hn : c.rest.length using Nat.strongRecOn generalizing c count with
  | ind n ih =>
    subst hn
    obtain ⟨count, rfl⟩ := Nat.exists_eq_add_one_of_ne_zero (Nat.ne_of_gt (Nat.zero_lt_of_lt h))
    unfold all
    rw [take, take]
    split
    · rfl
    · rfl
    · rename_i t next hnext
      have hlt := (reads_of_next hnext).length_lt
      rw [ih _ hlt (by omega) rfl, ih _ hlt hlt rfl]

theorem collect_finished {c : Cursor} (h : c.next = .finished) : c.collect.1 = ([], none) := by
  unfold collect all
  rw [take, h]
  rfl

theorem collect_fault {c : Cursor} {e : LexError} (h : c.next = .fault e) :
    c.collect.1 = ([], some e) := by
  unfold collect all
  rw [take, h]
  rfl

theorem collect_token {c next : Cursor} {t : Token} (h : c.next = .token t next) :
    c.collect.1 = (t :: next.collect.1.1, next.collect.1.2) := by
  have hlt := (reads_of_next h).length_lt
  unfold collect
  rw [all, take, h]
  dsimp only
  rw [take_eq_all hlt]
  rfl

/-- `Scans pos text ts pos' rest`: the text, which starts at `pos`, consists of the maximal lexemes
of the tokens `ts` followed by `rest`, which starts at `pos'`. -/
inductive Scans : Position → Bytes → List Token → Position → Bytes → Prop where
  | done {pos : Position} {text : Bytes} : Scans pos text [] pos text
  | token {pos pos' : Position} {l : Lexeme} {text rest : Bytes} {ts : List Token}
      (h : l.StopsAt text) (hs : Scans (pos.past l.spelling) text ts pos' rest) :
      Scans pos (l.spelling ++ text) (l.token pos :: ts) pos' rest

/-- `Halts pos text fault`: no token can be read at the start of the text, which is empty or has the
error `fault`. -/
inductive Halts (pos : Position) : Bytes → Option LexError → Prop where
  | finished : Halts pos [] none
  | flaw {text : Bytes} {e : LexError} (h : Flaw pos text e) : Halts pos text (some e)

theorem Halts.collect {pos : Position} {text : Bytes} {fault : Option LexError}
    (h : Halts pos text fault) : (facing pos text).collect.1 = ([], fault) := by
  cases h with
  | finished => exact collect_finished rfl
  | flaw h => exact collect_fault (next_flaw pos h)

theorem Scans.collect {pos pos' : Position} {text rest : Bytes} {ts : List Token}
    (h : Scans pos text ts pos' rest) :
    (facing pos text).collect.1 =
      (ts ++ (facing pos' rest).collect.1.1, (facing pos' rest).collect.1.2) := by
  induction h with
  | done => rfl
  | @token pos pos' l text rest ts h hs ih =>
    rw [collect_token (next_lexeme pos l h), ih]
    rfl

/-- Every text can be scanned until no token can be read. -/
theorem exists_scans (pos : Position) (text : Bytes) :
    ∃ ts pos' rest fault, Scans pos text ts pos' rest ∧ Halts pos' rest fault := by
  induction hn : text.length using Nat.strongRecOn generalizing pos text with
  | ind n ih =>
    subst hn
    by_cases hne : text = []
    · subst hne
      exact ⟨[], pos, [], none, .done, .finished⟩
    rcases isFront_of_ne_nil pos hne with ⟨l, rest, rfl, hl⟩ | ⟨e, he⟩
    · have hpos := List.length_pos_iff.2 l.spelling_ne_nil
      have hlt : rest.length < (l.spelling ++ rest).length := by
        rw [List.length_append]
        omega
      obtain ⟨ts, pos', rest', fault, hs, hf⟩ := ih _ hlt (pos.past l.spelling) rest rfl
      exact ⟨_, pos', rest', fault, .token hl hs, hf⟩
    · exact ⟨[], pos, text, some e, .done, .flaw he⟩

/-- The lexer specified by scans. -/
theorem collect_facing_iff {pos : Position} {text : Bytes} {ts : List Token}
    {fault : Option LexError} :
    (facing pos text).collect.1 = (ts, fault) ↔
      ∃ pos' rest, Scans pos text ts pos' rest ∧ Halts pos' rest fault := by
  constructor
  · intro h
    obtain ⟨ts', pos', rest, fault', hs, hf⟩ := exists_scans pos text
    have hc := hs.collect
    rw [hf.collect, h, List.append_nil] at hc
    cases hc
    exact ⟨pos', rest, hs, hf⟩
  · rintro ⟨pos', rest, hs, hf⟩
    rw [hs.collect, hf.collect, List.append_nil]

theorem Scans.exists_lexemes {pos pos' : Position} {text rest : Bytes} {ts : List Token}
    (h : Scans pos text ts pos' rest) :
    ∃ ls : List Lexeme, text = Lexeme.spellAll ls ++ rest ∧
      ts.map Token.content = Lexeme.contents pos.offset ls ∧
      pos'.offset = pos.offset + (Lexeme.spellAll ls).length ∧
      ∀ before l after, ls = before ++ l :: after →
        l.StopsAt (Lexeme.spellAll after ++ rest) := by
  induction h with
  | done =>
    refine ⟨[], rfl, rfl, by simp, ?_⟩
    intro before l after h
    simp at h
  | @token pos pos' l text rest ts hl hs ih =>
    obtain ⟨ls, rfl, hts, hoff, hstop⟩ := ih
    rw [Position.offset_past] at hts hoff
    refine ⟨l :: ls, ?_, ?_, ?_, ?_⟩
    · rw [Lexeme.spellAll_cons, List.append_assoc]
    · rw [List.map_cons, hts]
      rfl
    · rw [hoff, Lexeme.spellAll_cons, List.length_append]
      push_cast
      omega
    · intro before m after h
      cases before with
      | nil =>
        cases h
        exact hl
      | cons b before =>
        cases h
        exact hstop before m after rfl

/-- Lexemes that do not merge are scanned back. -/
theorem exists_scans_spellAll {ls : List Lexeme} (h : ls.IsChain fun l m => l.mayPrecede m)
    (pos : Position) :
    ∃ ts pos', Scans pos (Lexeme.spellAll ls) ts pos' [] ∧
      ts.map Token.content = Lexeme.contents pos.offset ls := by
  induction ls generalizing pos with
  | nil => exact ⟨[], pos, .done, rfl⟩
  | cons l ls ih =>
    obtain ⟨hl, hls⟩ := List.isChain_cons.1 h
    have hstop : l.StopsAt (Lexeme.spellAll ls) := by
      cases ls with
      | nil => exact l.stopsAt_nil
      | cons m ls => exact Lexeme.stopsAt_spelling (hl m rfl) _
    obtain ⟨ts, pos', hs, hts⟩ := ih hls (pos.past l.spelling)
    refine ⟨_, pos', .token hstop hs, ?_⟩
    rw [Position.offset_past] at hts
    rw [List.map_cons, hts]
    rfl

end Cursor

theorem tokenize_eq_iff {source : Bytes} {ts : List Token} {fault : Option LexError} :
    tokenize source = (ts, fault) ↔
      ∃ pos rest, Cursor.Scans {} source ts pos rest ∧ Cursor.Halts pos rest fault :=
  Cursor.collect_facing_iff

theorem tokenize_lexeme (l : Lexeme) : tokenize (l.spelling ++ []) = ([l.token {}], none) :=
  tokenize_eq_iff.2 ⟨_, [], .token l.stopsAt_nil .done, .finished⟩

/-- The lexemes of the tokens tile the source, from its start to its end or to a flaw. Each is
nonempty and maximal, and its token has its content and its offset. -/
theorem tokenize_tiles (source : Bytes) :
    ∃ (ls : List Lexeme) (rest : Bytes), source = Lexeme.spellAll ls ++ rest ∧
      (tokenize source).1.map Token.content = Lexeme.contents 0 ls ∧
      (∀ l ∈ ls, l.spelling ≠ []) ∧
      (∀ before l after, ls = before ++ l :: after →
        l.StopsAt (Lexeme.spellAll after ++ rest)) ∧
      match (tokenize source).2 with
      | none => rest = []
      | some e => ∃ pos : Position, pos.offset = (Lexeme.spellAll ls).length ∧ Flaw pos rest e := by
  obtain ⟨⟨ts, fault⟩, htokens⟩ : ∃ r, tokenize source = r := ⟨_, rfl⟩
  obtain ⟨pos, rest, hs, hf⟩ := tokenize_eq_iff.1 htokens
  obtain ⟨ls, hsource, hts, hoff, hstop⟩ := hs.exists_lexemes
  rw [htokens]
  refine ⟨ls, rest, hsource, hts, fun l _ => l.spelling_ne_nil, hstop, ?_⟩
  cases hf with
  | finished => rfl
  | flaw he => exact ⟨pos, by simpa using hoff, he⟩

/-- Concatenated lexemes of which no two adjacent ones merge are read back, each as its own
token. -/
theorem tokenize_spellAll {ls : List Lexeme} (h : ls.IsChain fun l m => l.mayPrecede m) :
    (tokenize (Lexeme.spellAll ls)).2 = none ∧
      (tokenize (Lexeme.spellAll ls)).1.map Token.content = Lexeme.contents 0 ls := by
  obtain ⟨ts, pos, hs, hts⟩ := Cursor.exists_scans_spellAll h {}
  have hc : tokenize (Lexeme.spellAll ls) = (ts, none) :=
    tokenize_eq_iff.2 ⟨pos, [], hs, .finished⟩
  rw [hc]
  exact ⟨rfl, hts⟩

/-- Digits before a letter of two bytes, and a string with an invalid byte before another letter. -/
theorem tokenize_spellAll_touching :
    let ls : List Lexeme :=
      [.integer ⟨'0', rfl⟩ [⟨'7', rfl⟩] (by decide), .identifier ⟨'λ', by decide +kernel⟩ [],
        .string [.raw ⟨0xC3, by decide⟩, .escape .newline], .identifier ⟨'a', by decide +kernel⟩ [],
        .blank ⟨'\t', rfl⟩ [⟨'\n', rfl⟩], .boolean false]
    (ls.IsChain fun l m => l.mayPrecede m) ∧
      (tokenize (Lexeme.spellAll ls)).2 = none ∧
      (tokenize (Lexeme.spellAll ls)).1.map Token.content =
        [(.integer 7, ascii "07", 0), (.identifier, [0xCE, 0xBB], 2),
          (.string, [0xEF, 0xBF, 0xBD, 0x0A], 4), (.identifier, ascii "a", 9),
          (.blank, ascii "\t\n", 10), (.boolean false, ascii "#f", 12)] := by
  intro ls
  have hchain : ls.IsChain fun l m => l.mayPrecede m := by simp [ls, Lexeme.mayPrecede]
  obtain ⟨hfault, htokens⟩ := tokenize_spellAll hchain
  have hcontents : Lexeme.contents 0 ls =
      [(.integer 7, ascii "07", 0), (.identifier, [0xCE, 0xBB], 2),
        (.string, [0xEF, 0xBF, 0xBD, 0x0A], 4), (.identifier, ascii "a", 9),
        (.blank, ascii "\t\n", 10), (.boolean false, ascii "#f", 12)] := by
    decide +kernel
  exact ⟨hchain, hfault, htokens.trans hcontents⟩

end MiniScheme
