import MiniScheme.Token.Stream

/-! The lexer as a relation: which token it reads at a cursor, and where it continues. -/
namespace MiniScheme

theorem Text.bytes_firstGlyph_ne_nil (lead : UInt8) (rest : Bytes) :
    (firstGlyph lead rest).bytes ≠ [] := by
  unfold firstGlyph
  cases h : sequence? lead rest with
  | none => exact List.cons_ne_nil _ _
  | some g =>
    unfold sequence? at h
    obtain ⟨layout, -, h⟩ := Option.bind_eq_some_iff.1 h
    dsimp only at h
    split at h
    · cases h
      exact List.cons_ne_nil _ _
    · cases h

theorem Text.bytes_ne_nil_of_mem_glyphsFrom {g : Glyph} {skip : Nat} {text : Bytes}
    (h : g ∈ glyphsFrom skip text) : g.bytes ≠ [] := by
  fun_induction glyphsFrom skip text with
  | case1 => cases h
  | case2 skip b rest ih => exact ih h
  | case3 lead rest glyph ih =>
    rcases List.mem_cons.1 h with rfl | h
    · exact bytes_firstGlyph_ne_nil lead rest
    · exact ih h

namespace Cursor

def IsSpelt (c : Cursor) : Prop :=
  ∀ g ∈ c.rest, g.bytes ≠ []

theorem start_isSpelt (source : Bytes) : (start source).IsSpelt :=
  fun _ hg => Text.bytes_ne_nil_of_mem_glyphsFrom hg

/-- `Reads c t next`: the lexer reads the token `t` at `c` and continues at `next`. -/
inductive Reads (c : Cursor) : Token → Cursor → Prop where
  | lexeme {kind : Token.Kind} {lexeme : List Text.Glyph} (hne : lexeme ≠ [])
      (hl : lexeme <+: c.rest) : Reads c ⟨kind, Text.spelling lexeme, c.pos⟩ (c.skip lexeme)
  | string {g : Text.Glyph} {rest : List Text.Glyph} {text : Bytes} {next : Cursor}
      (hc : c.rest = g :: rest) (hs : readString (c.pos.step g) rest = .ok (text, next)) :
      Reads c ⟨.string, text, c.pos⟩ next

theorem reads_of_emit {c next : Cursor} {kind : Token.Kind} {lexeme : List Text.Glyph} {t : Token}
    (hne : lexeme ≠ []) (hl : lexeme <+: c.rest) (h : c.emit kind lexeme = .token t next) :
    c.Reads t next := by
  cases h
  exact .lexeme hne hl

theorem reads_of_emit_run {c next : Cursor} {kind : Token.Kind} {p : Char → Bool}
    {g : Text.Glyph} {rest : List Text.Glyph} {t : Token} (hc : c.rest = g :: rest)
    (hg : p g.char) (h : c.emit kind (c.run p) = .token t next) : c.Reads t next := by
  have hne : c.run p ≠ [] := by
    unfold run
    rw [hc, List.takeWhile_cons, if_pos hg]
    exact List.cons_ne_nil _ _
  exact reads_of_emit hne (List.takeWhile_prefix _) h

theorem isSubsequent_of_isInitial {ch : Char} (h : Token.isInitial ch) : Token.isSubsequent ch := by
  unfold Token.isSubsequent
  rw [h]
  rfl

theorem reads_of_next {c next : Cursor} {t : Token} (h : c.next = .token t next) :
    c.Reads t next := by
  unfold Cursor.next at h
  split at h
  · cases h
  · rename_i g rest hc
    have hone : [g] <+: c.rest := by rw [hc]; exact ⟨rest, rfl⟩
    split at h
    · exact reads_of_emit (List.cons_ne_nil _ _) hone h
    split at h
    · exact reads_of_emit (List.cons_ne_nil _ _) hone h
    split at h
    · split at h
      · cases h
      · rename_i g' rest'
        have htwo : [g, g'] <+: c.rest := by rw [hc]; exact ⟨rest', rfl⟩
        split at h
        · exact reads_of_emit (List.cons_ne_nil _ _) htwo h
        split at h
        · exact reads_of_emit (List.cons_ne_nil _ _) htwo h
        · cases h
    split at h
    · split at h
      · cases h
      · rename_i text after hs
        cases h
        exact .string hc hs
    split at h
    · exact reads_of_emit_run hc ‹_› h
    split at h
    · exact reads_of_emit_run hc (isSubsequent_of_isInitial ‹_›) h
    split at h
    · dsimp only at h
      split at h
      · exact reads_of_emit_run hc ‹_› h
      · cases h
    · cases h

theorem suffix_of_readString {pos : Position} {gs : List Text.Glyph} {text : Bytes}
    {next : Cursor} (h : readString pos gs = .ok (text, next)) : next.rest <:+ gs := by
  fun_induction readString pos gs generalizing text with
  | case1 => cases h
  | case2 pos g rest hquote =>
    cases h
    exact List.suffix_cons g rest
  | case3 => cases h
  | case4 => cases h
  | case5 pos g hquote hescape e rest b hb ih =>
    cases hr : readString ((pos.step g).step e) rest with
    | error fault => rw [hr] at h; cases h
    | ok r =>
      rw [hr] at h
      cases h
      exact ((ih hr).trans (List.suffix_cons e rest)).trans (List.suffix_cons g _)
  | case6 pos g rest hquote hescape ih =>
    cases hr : readString (pos.step g) rest with
    | error fault => rw [hr] at h; cases h
    | ok r =>
      rw [hr] at h
      cases h
      exact (ih hr).trans (List.suffix_cons g rest)

theorem Reads.suffix {c next : Cursor} {t : Token} (h : c.Reads t next) :
    next.rest <:+ c.rest := by
  cases h with
  | lexeme hne hl => exact List.drop_suffix _ _
  | string hc hs =>
    rw [hc]
    exact (suffix_of_readString hs).trans (List.suffix_cons _ _)

theorem Reads.isSpelt {c next : Cursor} {t : Token} (h : c.Reads t next) (hc : c.IsSpelt) :
    next.IsSpelt :=
  fun g hg => hc g (h.suffix.subset hg)

theorem Reads.literal_ne_nil {c next : Cursor} {t : Token} (h : c.Reads t next) (hc : c.IsSpelt)
    (ht : t.kind = .identifier) : t.literal ≠ [] := by
  cases h with
  | @lexeme kind lexeme hne hl =>
    obtain ⟨g, gs, rfl⟩ := List.exists_cons_of_ne_nil hne
    have hg : g.bytes ≠ [] := hc g (hl.subset List.mem_cons_self)
    intro hnil
    exact hg (List.append_eq_nil_iff.1 hnil).1
  | string => cases ht

theorem literal_ne_nil_of_mem_take {c : Cursor} (count : Nat) {t : Token} (hc : c.IsSpelt)
    (h : Item.token t ∈ (c.take count).1) (ht : t.kind = .identifier) : t.literal ≠ [] := by
  induction count generalizing c with
  | zero => cases h
  | succ count ih =>
    unfold take at h
    split at h
    · cases h
    · rcases List.mem_cons.1 h with h | h
      · cases h
      · cases h
    · rename_i u next hn
      have hr := reads_of_next hn
      rcases List.mem_cons.1 h with h | h
      · cases h
        exact hr.literal_ne_nil hc ht
      · exact ih (hr.isSpelt hc) h

end Cursor

/-- No identifier of a source is empty. -/
theorem literal_ne_nil_of_mem_tokenize {source : Bytes} {t : Token} (h : t ∈ (tokenize source).1)
    (ht : t.kind = .identifier) : t.literal ≠ [] := by
  obtain ⟨item, hitem, ht'⟩ := List.mem_filterMap.1 h
  cases item with
  | fault e => cases ht'
  | token u =>
    cases ht'
    let c := Cursor.start source
    exact Cursor.literal_ne_nil_of_mem_take (c.rest.length + 1) (Cursor.start_isSpelt source)
      hitem ht

end MiniScheme
