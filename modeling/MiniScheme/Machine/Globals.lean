import MiniScheme.Value

/-! Global bindings: a table sorted by name. -/
namespace MiniScheme

/-- Names ascend strictly, byte by byte, so a table is determined by what it binds. -/
@[ext] structure Globals where
  entries : List (Bytes × Value)
  sorted : entries.Pairwise (fun a b => a.1 < b.1)
deriving DecidableEq

namespace Globals

def empty : Globals :=
  ⟨[], .nil⟩

theorem lookup_cons_of_ne {name other : Bytes} (h : name ≠ other) (value : Value)
    (entries : List (Bytes × Value)) :
    ((other, value) :: entries).lookup name = entries.lookup name := by
  have hbeq : (name == other) = false := beq_eq_false_iff_ne.2 h
  rw [List.lookup_cons, hbeq]

def find? (g : Globals) (name : Bytes) : Option Value :=
  g.entries.lookup name

def insert (name : Bytes) (value : Value) : List (Bytes × Value) → List (Bytes × Value)
  | [] => [(name, value)]
  | (other, old) :: rest =>
    if name < other then (name, value) :: (other, old) :: rest
    else if name = other then (name, value) :: rest
    else (other, old) :: insert name value rest

theorem mem_insert {name : Bytes} {value : Value} {entries : List (Bytes × Value)}
    {entry : Bytes × Value} (h : entry ∈ insert name value entries) :
    entry = (name, value) ∨ entry ∈ entries := by
  induction entries with
  | nil => exact .inl (List.mem_singleton.1 h)
  | cons head rest ih =>
    obtain ⟨other, old⟩ := head
    rw [insert] at h
    split at h
    · exact List.mem_cons.1 h
    · split at h
      · exact (List.mem_cons.1 h).imp_right (List.mem_cons_of_mem _)
      · rcases List.mem_cons.1 h with rfl | h
        · exact .inr List.mem_cons_self
        · exact (ih h).imp_right (List.mem_cons_of_mem _)

theorem sorted_insert (name : Bytes) (value : Value) {entries : List (Bytes × Value)}
    (h : entries.Pairwise (fun a b => a.1 < b.1)) :
    (insert name value entries).Pairwise (fun a b => a.1 < b.1) := by
  induction entries with
  | nil => exact List.pairwise_singleton ..
  | cons head rest ih =>
    obtain ⟨other, old⟩ := head
    obtain ⟨hhead, hrest⟩ := List.pairwise_cons.1 h
    rw [insert]
    split
    · rename_i hlt
      refine List.pairwise_cons.2 ⟨fun entry hentry => ?_, h⟩
      rcases List.mem_cons.1 hentry with rfl | hentry
      · exact hlt
      · exact List.lt_trans hlt (hhead entry hentry)
    · rename_i hle
      split
      · rename_i heq
        subst heq
        exact List.pairwise_cons.2 ⟨hhead, hrest⟩
      · rename_i hne
        refine List.pairwise_cons.2 ⟨fun entry hentry => ?_, ih hrest⟩
        rcases mem_insert hentry with rfl | hentry
        · exact Std.lt_of_le_of_ne (Std.not_lt.1 hle) (Ne.symm hne)
        · exact hhead entry hentry

/-- Creates a binding, or overwrites the one there is. -/
def bind (name : Bytes) (value : Value) (g : Globals) : Globals :=
  ⟨insert name value g.entries, sorted_insert name value g.sorted⟩

@[simp] theorem find?_bind_self (g : Globals) (name : Bytes) (value : Value) :
    (g.bind name value).find? name = some value := by
  obtain ⟨entries, sorted⟩ := g
  simp only [find?, bind]
  clear sorted
  induction entries with
  | nil => simp [insert]
  | cons head rest ih =>
    obtain ⟨other, old⟩ := head
    rw [insert]
    split
    · simp
    · split
      · simp
      · rename_i hne
        rw [lookup_cons_of_ne hne, ih]

@[simp] theorem find?_bind_of_ne (g : Globals) {name other : Bytes} (value : Value)
    (h : other ≠ name) : (g.bind name value).find? other = g.find? other := by
  obtain ⟨entries, sorted⟩ := g
  simp only [find?, bind]
  clear sorted
  induction entries with
  | nil => exact lookup_cons_of_ne h value []
  | cons head rest ih =>
    obtain ⟨first, old⟩ := head
    rw [insert]
    split
    · exact lookup_cons_of_ne h value _
    · split
      · rename_i heq
        subst heq
        rw [lookup_cons_of_ne h, lookup_cons_of_ne h]
      · rw [List.lookup_cons, List.lookup_cons, ih]

/-- The table of a list of bindings, where the first entry for a name takes precedence. -/
def ofList : List (Bytes × Value) → Globals
  | [] => empty
  | (name, value) :: rest => (ofList rest).bind name value

theorem find?_ofList (entries : List (Bytes × Value)) (name : Bytes) :
    (ofList entries).find? name = entries.lookup name := by
  induction entries with
  | nil => rfl
  | cons head rest ih =>
    obtain ⟨other, value⟩ := head
    by_cases h : name = other
    · subst h
      simp [ofList]
    · rw [ofList, find?_bind_of_ne _ _ h, lookup_cons_of_ne h, ih]

theorem lookup_eq_none {name : Bytes} {entries : List (Bytes × Value)}
    (h : ∀ entry ∈ entries, name < entry.1) : entries.lookup name = none := by
  induction entries with
  | nil => rfl
  | cons head rest ih =>
    obtain ⟨other, value⟩ := head
    have hne : name ≠ other := by
      rintro rfl
      exact List.lt_irrefl _ (h _ List.mem_cons_self)
    rw [lookup_cons_of_ne hne]
    exact ih fun entry hentry => h entry (.tail _ hentry)

/-- The first name of a table is below every other that it binds. -/
theorem le_of_lookup {name first : Bytes} {value old : Value} {rest : List (Bytes × Value)}
    (hsorted : ((first, old) :: rest).Pairwise (fun a b => a.1 < b.1))
    (h : ((first, old) :: rest).lookup name = some value) : ¬name < first := by
  intro hlt
  have hnone : ((first, old) :: rest).lookup name = none := by
    refine lookup_eq_none fun entry hentry => ?_
    rcases List.mem_cons.1 hentry with rfl | hentry
    · exact hlt
    · exact List.lt_trans hlt ((List.pairwise_cons.1 hsorted).1 entry hentry)
  simp [hnone] at h

/-- Tables that bind the same names to the same values are equal. -/
theorem ext_find? {g g' : Globals} (h : ∀ name, g.find? name = g'.find? name) : g = g' := by
  obtain ⟨entries, hs⟩ := g
  obtain ⟨entries', hs'⟩ := g'
  simp only [find?] at h
  suffices entries = entries' by subst this; rfl
  induction entries generalizing entries' with
  | nil =>
    cases entries' with
    | nil => rfl
    | cons head rest =>
      obtain ⟨name, value⟩ := head
      simpa using h name
  | cons head rest ih =>
    obtain ⟨name, value⟩ := head
    cases entries' with
    | nil => simpa using h name
    | cons head' rest' =>
      obtain ⟨name', value'⟩ := head'
      have hle := le_of_lookup hs' (by simpa using (h name).symm)
      have hle' := le_of_lookup hs (by simpa using h name')
      have hname : name = name' :=
        List.le_antisymm (List.not_lt.1 hle') (List.not_lt.1 hle)
      subst hname
      have hvalue : value = value' := by simpa using h name
      subst hvalue
      obtain ⟨hhead, hrest⟩ := List.pairwise_cons.1 hs
      obtain ⟨hhead', hrest'⟩ := List.pairwise_cons.1 hs'
      rw [ih hrest rest' hrest' fun other => ?_]
      by_cases hother : other = name
      · subst hother
        rw [lookup_eq_none hhead, lookup_eq_none hhead']
      · have hlookup := h other
        rwa [lookup_cons_of_ne hother, lookup_cons_of_ne hother] at hlookup

def copy (g : Globals) : Globals :=
  ⟨g.entries.map fun (name, value) => (name, value.copy), g.sorted.map _ fun _ _ h => h⟩

end Globals

end MiniScheme
