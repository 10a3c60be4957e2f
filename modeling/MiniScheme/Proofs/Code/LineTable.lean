import Mathlib.Data.List.Chain
import MiniScheme.Code.Chunk

/-! The line table as a run-length code. The table gives each emitted instruction its line, has an
entry only where the line changes, and is the shortest one with an entry for every instruction. -/
namespace MiniScheme

/-- `f` may follow `e` in a table without redundant entries. -/
def LineEntry.Precedes (e f : LineEntry) : Prop :=
  e.offset < f.offset ∧ e.line ≠ f.line

section

variable {table es : List LineEntry} {e f : LineEntry} {d offset : Int}

theorem lineFrom_of_lt (h : offset < f.offset) : lineFrom d (f :: table) offset = d := by
  rw [lineFrom, if_pos h]

theorem lineFrom_of_le (h : f.offset ≤ offset) :
    lineFrom d (f :: table) offset = lineFrom f.line table offset := by
  rw [lineFrom, if_neg (Int.not_lt.2 h)]

/-- After all entries, the last one gives the line. -/
theorem lineFrom_of_forall_le (h : ∀ e ∈ table, e.offset ≤ offset) :
    lineFrom d table offset = (table.getLast?.map (·.line)).getD d := by
  induction table generalizing d with
  | nil => rfl
  | cons f table ih =>
    obtain ⟨hf, htable⟩ := List.forall_mem_cons.1 h
    rw [lineFrom_of_le hf, ih htable, List.getLast?_cons]
    cases table.getLast? <;> rfl

theorem lineFrom_concat_of_lt (h : offset < e.offset) :
    lineFrom d (table ++ [e]) offset = lineFrom d table offset := by
  induction table generalizing d with
  | nil => exact lineFrom_of_lt h
  | cons f table ih => rw [List.cons_append, lineFrom, lineFrom, ih]

theorem offset_le_of_isChain (h : (e :: es).IsChain LineEntry.Precedes) (hf : f ∈ e :: es) :
    e.offset ≤ f.offset := by
  induction es generalizing e with
  | nil => exact Int.le_of_eq (congrArg LineEntry.offset (List.mem_singleton.1 hf).symm)
  | cons e' es ih =>
    obtain ⟨hnext, hrest⟩ := List.isChain_cons_cons.1 h
    rcases List.mem_cons.1 hf with rfl | hf
    · exact Int.le_refl _
    · exact Int.le_trans (Int.le_of_lt hnext.1) (ih hrest hf)

theorem lineFrom_tail (h : ∀ g ∈ es, lineFrom d (f :: table) g.offset = g.line)
    (hlate : ∀ g ∈ es, f.offset ≤ g.offset) :
    ∀ g ∈ es, lineFrom f.line table g.offset = g.line := by
  intro g hg
  have hg' := h g hg
  rwa [lineFrom_of_le (hlate g hg)] at hg'

/-- A table gives at most one line more than it has entries: the one before the first entry. -/
theorem length_le_succ_of_lineFrom (hc : es.IsChain LineEntry.Precedes)
    (h : ∀ g ∈ es, lineFrom d table g.offset = g.line) : es.length ≤ table.length + 1 := by
  induction table generalizing d es with
  | nil =>
    rcases es with _ | ⟨e, _ | ⟨e', es⟩⟩
    · exact Nat.zero_le _
    · exact Nat.le_refl _
    · obtain ⟨he, hes⟩ := List.forall_mem_cons.1 h
      have he' := (List.forall_mem_cons.1 hes).1
      exact absurd (he.symm.trans he') (List.isChain_cons_cons.1 hc).1.2
  | cons f table ih =>
    rcases es with _ | ⟨e, es⟩
    · exact Nat.zero_le _
    have hnext : es.length ≤ table.length + 1 := by
      rcases es with _ | ⟨e', es⟩
      · exact Nat.zero_le _
      obtain ⟨hchange, hrest⟩ := List.isChain_cons_cons.1 hc
      obtain ⟨he, hes⟩ := List.forall_mem_cons.1 h
      have hlate : f.offset ≤ e'.offset := by
        by_contra hearly
        have hearly := Int.not_le.1 hearly
        have he' := hes e' List.mem_cons_self
        rw [lineFrom_of_lt hearly] at he'
        rw [lineFrom_of_lt (Int.lt_trans hchange.1 hearly)] at he
        exact hchange.2 (he.symm.trans he')
      refine ih hrest (lineFrom_tail hes ?_)
      exact fun g hg => Int.le_trans hlate (offset_le_of_isChain hrest hg)
    exact Nat.succ_le_succ hnext

/-- If an entry gives the first line, there is an entry for each change of line. -/
theorem length_le_of_lineFrom (hc : (e :: es).IsChain LineEntry.Precedes)
    (h : ∀ g ∈ e :: es, lineFrom d table g.offset = g.line)
    (hfirst : e.line = d → ∃ f ∈ table.head?, f.offset ≤ e.offset) :
    (e :: es).length ≤ table.length := by
  have he := h e List.mem_cons_self
  cases table with
  | nil =>
    obtain ⟨f, hf, -⟩ := hfirst he.symm
    cases hf
  | cons f table =>
    have hlate : f.offset ≤ e.offset := by
      by_contra hearly
      rw [lineFrom_of_lt (Int.not_le.1 hearly)] at he
      obtain ⟨f', hf', hle⟩ := hfirst he.symm
      cases hf'
      exact hearly hle
    refine length_le_succ_of_lineFrom hc (lineFrom_tail h ?_)
    exact fun g hg => Int.le_trans hlate (offset_le_of_isChain hc hg)

end

namespace Chunk

section

variable (c : Chunk) (op : Op) (line : Int)

theorem lines_emit : (c.emit op line).lines =
    if c.lines.getLast?.map (·.line) = some line then c.lines
    else c.lines ++ [⟨c.code.length, line⟩] := rfl

theorem getLast?_lines_emit : (c.emit op line).lines.getLast?.map (·.line) = some line := by
  rw [lines_emit]
  split
  · assumption
  · rw [List.getLast?_concat]
    rfl

theorem mem_lines_emit {e : LineEntry} (h : e ∈ (c.emit op line).lines) :
    e ∈ c.lines ∨ e = ⟨c.code.length, line⟩ := by
  rw [lines_emit] at h
  split at h
  · exact .inl h
  · simpa using h

/-- Emission preserves the lines of earlier instructions. -/
theorem lineAt_emit_of_lt {offset : Int} (h : offset < c.code.length) :
    lineAt (c.emit op line).lines offset = lineAt c.lines offset := by
  rw [lines_emit]
  split
  · rfl
  · exact lineFrom_concat_of_lt h

end

def emitAll (c : Chunk) (items : List (Op × Int)) : Chunk :=
  items.foldl (fun c item => c.emit item.1 item.2) c

/-- `c.Records items`: the chunk has the code of `items`, and its table gives their lines. -/
structure Records (c : Chunk) (items : List (Op × Int)) : Prop where
  code : c.code = items.map (·.1)
  chain : c.lines.IsChain LineEntry.Precedes
  start : c.lines.head?.map (·.offset) = items.head?.map fun _ => 0
  entry : ∀ e ∈ c.lines, ∃ (i : Nat) (op : Op), e.offset = i ∧ items[i]? = some (op, e.line)
  last : c.lines.getLast?.map (·.line) = items.getLast?.map (·.2)
  line : ∀ (i : Nat) (item : Op × Int), items[i]? = some item → lineAt c.lines i = item.2

theorem records_nil (id : Int) : Records { id } [] where
  code := rfl
  chain := .nil
  start := rfl
  entry := by simp
  last := rfl
  line := by simp

section

variable {c : Chunk} {items : List (Op × Int)} (h : c.Records items)

include h

theorem Records.length_code : c.code.length = items.length := by
  rw [h.code, List.length_map]

theorem Records.offset_lt {e : LineEntry} (he : e ∈ c.lines) : e.offset < items.length := by
  obtain ⟨i, op, hi, hitem⟩ := h.entry e he
  rw [hi]
  exact Int.ofNat_lt.2 (List.getElem?_eq_some_iff.1 hitem).1

theorem Records.lines_eq_nil_iff : c.lines = [] ↔ items = [] := by
  rw [← List.head?_eq_none_iff, ← List.head?_eq_none_iff (l := items),
    ← Option.map_eq_none_iff (f := (·.offset)), h.start, Option.map_eq_none_iff]

theorem Records.lineAt_after {offset : Int} (ho : (items.length : Int) ≤ offset + 1) :
    lineAt c.lines offset = (items.getLast?.map (·.2)).getD (-1) := by
  rw [← h.last]
  apply lineFrom_of_forall_le
  intro e he
  have hlt := h.offset_lt he
  omega

theorem Records.offset_first {e : LineEntry} {es : List LineEntry} (he : c.lines = e :: es) :
    e.offset = 0 := by
  have hstart := h.start
  rw [he] at hstart
  obtain ⟨item, -, hzero⟩ := Option.map_eq_some_iff.1 hstart.symm
  exact hzero.symm

theorem Records.lineAt_negative {offset : Int} (ho : offset < 0) : lineAt c.lines offset = -1 := by
  cases hlines : c.lines with
  | nil => rfl
  | cons e es =>
    apply lineFrom_of_lt
    rw [h.offset_first hlines]
    exact ho

/-- Emission adds no redundant entry. -/
theorem Records.chain_emit (op : Op) (line : Int) :
    (c.emit op line).lines.IsChain LineEntry.Precedes := by
  rw [lines_emit]
  split
  · exact h.chain
  · rename_i hchange
    refine List.isChain_append.2 ⟨h.chain, List.isChain_singleton _, ?_⟩
    intro e he f hf
    cases hf
    constructor
    · rw [h.length_code]
      exact h.offset_lt (List.mem_of_getLast? he)
    · rintro rfl
      exact hchange (congrArg (Option.map (·.line)) he)

theorem Records.start_emit (op : Op) (line : Int) :
    (c.emit op line).lines.head?.map (·.offset) =
      (items ++ [(op, line)]).head?.map fun _ => 0 := by
  rw [lines_emit]
  by_cases hnil : items = []
  · have hlines := h.lines_eq_nil_iff.2 hnil
    have hlength := h.length_code
    subst hnil
    simp [hlines, hlength]
  · have hlines := mt h.lines_eq_nil_iff.1 hnil
    rw [List.head?_append_of_ne_nil _ hnil, ← h.start]
    split
    · rfl
    · rw [List.head?_append_of_ne_nil _ hlines]

theorem Records.entry_emit (op : Op) (line : Int) {e : LineEntry}
    (he : e ∈ (c.emit op line).lines) :
    ∃ (i : Nat) (op' : Op), e.offset = i ∧ (items ++ [(op, line)])[i]? = some (op', e.line) := by
  rcases mem_lines_emit c op line he with he | rfl
  · obtain ⟨i, op', hi, hitem⟩ := h.entry e he
    have hlt := (List.getElem?_eq_some_iff.1 hitem).1
    exact ⟨i, op', hi, by rw [List.getElem?_append_left hlt, hitem]⟩
  · exact ⟨items.length, op, by rw [h.length_code], List.getElem?_concat_length⟩

theorem Records.lineAt_emit_length (op : Op) (line : Int) :
    lineAt (c.emit op line).lines items.length = line := by
  have hle : ∀ e ∈ (c.emit op line).lines, e.offset ≤ (items.length : Int) := by
    intro e he
    rcases mem_lines_emit c op line he with he | rfl
    · exact Int.le_of_lt (h.offset_lt he)
    · exact Int.le_of_eq (congrArg Int.ofNat h.length_code)
  unfold lineAt
  rw [lineFrom_of_forall_le hle, getLast?_lines_emit]
  rfl

/-- The step lemma: emission preserves the record. -/
theorem Records.emit (op : Op) (line : Int) :
    (c.emit op line).Records (items ++ [(op, line)]) where
  code := by
    rw [List.map_append, ← h.code]
    rfl
  chain := h.chain_emit op line
  start := h.start_emit op line
  entry := fun _ => h.entry_emit op line
  last := by
    rw [getLast?_lines_emit, List.getLast?_concat]
    rfl
  line := by
    intro i item hitem
    by_cases hi : i < items.length
    · rw [List.getElem?_append_left hi] at hitem
      rw [lineAt_emit_of_lt c op line (by rw [h.length_code]; exact Int.ofNat_lt.2 hi)]
      exact h.line i item hitem
    · have hlt := (List.getElem?_eq_some_iff.1 hitem).1
      rw [List.length_append, List.length_singleton] at hlt
      obtain rfl : i = items.length := by omega
      rw [List.getElem?_concat_length] at hitem
      cases hitem
      exact h.lineAt_emit_length op line

theorem Records.emitAll (more : List (Op × Int)) : (c.emitAll more).Records (items ++ more) := by
  induction more generalizing c items with
  | nil =>
    rw [List.append_nil]
    exact h
  | cons item more ih =>
    have hall := ih (h.emit item.1 item.2)
    rwa [List.append_assoc] at hall

/-- The table is minimal among those with an entry for the first instruction; without one, the first
line would be -1. -/
theorem Records.length_le {table : List LineEntry}
    (htable : ∀ (i : Nat) (item : Op × Int), items[i]? = some item → lineAt table i = item.2)
    (hfirst : items.head?.map (·.2) = some (-1) → ∃ f ∈ table.head?, f.offset ≤ 0) :
    c.lines.length ≤ table.length := by
  have hgiven : ∀ e ∈ c.lines, lineAt table e.offset = e.line := by
    intro e he
    obtain ⟨i, op, hi, hitem⟩ := h.entry e he
    rw [hi, htable i _ hitem]
  have hchain := h.chain
  cases hlines : c.lines with
  | nil => exact Nat.zero_le _
  | cons e es =>
    have hzero := h.offset_first hlines
    obtain ⟨i, op, hi, hitem⟩ := h.entry e (by rw [hlines]; exact List.mem_cons_self)
    obtain rfl : i = 0 := by omega
    rw [hlines] at hchain hgiven
    refine length_le_of_lineFrom hchain hgiven ?_
    intro hline
    rw [hzero]
    apply hfirst
    rw [List.head?_eq_getElem?, hitem]
    exact congrArg some hline

end

/-- The entry for a first line -1 is the only redundant one. -/
example :
    let c := ({} : Chunk).emitAll [(.load, -1)]
    c.lines = [⟨0, -1⟩] ∧ lineAt c.lines 0 = -1 ∧ lineAt [] 0 = -1 := by
  decide

/-- Emission into an empty chunk. The code is that of the instructions. The offsets of the table
ascend strictly from zero and adjacent entries have different lines, so no table with an entry for
every instruction that gives the same lines is shorter. The table gives each instruction its line,
-1 before the first instruction, and the last line after the last one. -/
theorem lineAt_emitAll (id : Int) (items : List (Op × Int)) :
    let c := ({ id } : Chunk).emitAll items
    c.code = items.map (·.1) ∧
    c.lines.head?.map (·.offset) = items.head?.map (fun _ => 0) ∧
    c.lines.Pairwise (fun e f => e.offset < f.offset) ∧
    c.lines.IsChain (fun e f => e.line ≠ f.line) ∧
    (∀ table : List LineEntry,
      (∀ (i : Nat) (item : Op × Int), items[i]? = some item → lineAt table i = item.2) →
      (items.head?.map (·.2) = some (-1) → ∃ f ∈ table.head?, f.offset ≤ 0) →
      c.lines.length ≤ table.length) ∧
    (∀ (i : Nat) (item : Op × Int), items[i]? = some item → lineAt c.lines i = item.2) ∧
    (∀ offset < 0, lineAt c.lines offset = -1) ∧
    (∀ offset, lineAt [] offset = -1) ∧
    ∀ offset ≥ (items.length : Int), ∀ item ∈ items.getLast?, lineAt c.lines offset = item.2 := by
  intro c
  have h : c.Records items := (records_nil id).emitAll items
  refine ⟨h.code, h.start, ?_, h.chain.imp fun e f hef => hef.2, fun table => h.length_le, h.line,
    fun offset => h.lineAt_negative, fun offset => rfl, ?_⟩
  · have hoffsets : c.lines.IsChain fun e f => e.offset < f.offset :=
      h.chain.imp fun e f hef => hef.1
    exact List.isChain_iff_pairwise.1 hoffsets
  · intro offset ho item hitem
    rw [h.lineAt_after (by omega), hitem]
    rfl

end Chunk

end MiniScheme
