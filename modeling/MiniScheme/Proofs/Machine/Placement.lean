import MiniScheme.Proofs.Machine.Correspondence

/-! Runs of relocated code. They have the same effects and report the same errors at shifted
sites. -/
namespace MiniScheme

def RunError.relocate (places lines : Nat) (e : RunError) : RunError where
  cause := e.cause
  site := e.site.relocate places lines
  stack := e.stack.map (.relocate places lines)

def Outcome.relocate (places lines : Nat) : Outcome → Outcome
  | value v => value v
  | error v e => error v (e.relocate places lines)
  | crash => crash

theorem Outcome.viewed_relocate (places lines : Nat) (o : Outcome) :
    o.viewed (.relocate places lines) = o.relocate places lines := by
  cases o <;> rfl

theorem Outcome.relocate_zero (o : Outcome) : o.relocate 0 0 = o := by
  rw [← viewed_relocate, funext Site.relocate_zero]
  exact o.viewed_id

theorem Native.Unobservant.impartial {n : Native} (h : n.Unobservant) (p : Program) :
    n.Impartial p p (.relocate 0 0) id where
  program _ _ := rfl
  reply m args e _ := by rw [funext Site.relocate_zero]; rfl
  unobservant := h

namespace Machine

theorem runEntries_append (m : Machine) (natives : Registry) (p : Program) (last : Value)
    (ids ids' : List Int) :
    (∀ v, (m.runEntries natives p last ids).2 = .value v →
      m.runEntries natives p last (ids ++ ids') =
        (m.runEntries natives p last ids).1.runEntries natives p v ids') ∧
    ((∀ v, (m.runEntries natives p last ids).2 ≠ .value v) →
      m.runEntries natives p last (ids ++ ids') = m.runEntries natives p last ids) := by
  induction ids generalizing m last with
  | nil =>
    constructor
    · intro v hv
      cases hv
      rfl
    · intro hv
      exact absurd rfl (hv last)
  | cons id ids ih =>
    simp only [List.cons_append, Machine.runEntries]
    cases p.chunk? id with
    | none =>
      refine ⟨?_, fun _ => rfl⟩
      intro v hv
      cases hv
    | some c =>
      dsimp only
      generalize m.execute natives c = r
      obtain ⟨next, outcome⟩ := r
      cases outcome with
      | value v => exact ih next v
      | error v e =>
        refine ⟨?_, fun _ => rfl⟩
        intro v hv
        cases hv
      | crash =>
        refine ⟨?_, fun _ => rfl⟩
        intro v hv
        cases hv

section

variable {m n : Machine} {natives : Registry} {p q : Program} {places lines : Nat}

/-- Entries whose code is embedded in another program have the same effect there. -/
theorem Resembles.runEntries_embedded
    (hi : ∀ n ∈ natives.callable, n.Impartial p q (.relocate places lines) id)
    (h : m.Resembles n) (hpq : p.Embeds q places lines) (hm : m.program = some p)
    (hn : n.program = some q) (last last' : Value) {ids : List Int}
    (hids : ∀ id ∈ ids, ∃ c, p.chunk? id = some (some c)) :
    let r := m.runEntries natives p last ids
    let s := n.runEntries natives q last' (ids.map (· + (places : Int)))
    r.1.Resembles s.1 ∧
      s.2 = if ids = [] then .value last' else r.2.relocate places lines := by
  have hrun := h.runEntries hi hpq.corresponds hm hn last last' hids
  simp only [Outcome.viewed_id, Outcome.viewed_relocate] at hrun
  exact hrun

theorem Resembles.runEntries_in_place
    (hi : ∀ n ∈ natives.callable, n.Impartial p q (.relocate 0 0) id) (h : m.Resembles n)
    (hpq : p.Embeds q 0 0) (hm : m.program = some p) (hn : n.program = some q) (last : Value)
    {ids : List Int} (hids : ∀ id ∈ ids, ∃ c, p.chunk? id = some (some c)) :
    let r := m.runEntries natives p last ids
    let s := n.runEntries natives q last ids
    r.1.Resembles s.1 ∧ s.2 = r.2 := by
  have hrun := h.runEntries_zero hi hpq.corresponds hm hn last hids
  simp only [Outcome.viewed_id, Outcome.viewed_relocate, Outcome.relocate_zero] at hrun
  exact hrun

/-- Compiled programs run alike on resembling machines, whatever these have run before. -/
theorem Resembles.run (hu : ∀ n ∈ natives.callable, n.Unobservant) (h : m.Resembles n)
    {forms : List Expr} (hp : compile forms = .ok p) (hforms : Expr.areSolid forms) :
    let r := m.run natives (some p)
    let s := n.run natives (some p)
    r.1.Resembles s.1 ∧ s.2 = r.2 :=
  (h.load (some p) (some p)).runEntries_in_place (fun n hmem => (hu n hmem).impartial p)
    (embeds_self hp hforms) rfl rfl .null (exists_chunk_of_mem_entries hp)

/-- Running concatenated programs is running the first and then, if it succeeds, the second. -/
theorem run_append (ha : ∀ n ∈ natives.callable, n.Aloof)
    (hu : ∀ n ∈ natives.callable, n.Unobservant) {es fs : List Expr} (hp : compile es = .ok p)
    (hq : compile fs = .ok q) (hes : Expr.areSolid es) (hfs : Expr.areSolid fs) (m : Machine)
    (lines : Nat) :
    let r := m.run natives (some p)
    let s := r.1.run natives (some q)
    let t := m.run natives (some (p.append q lines))
    (∀ v, r.2 = .value v → s.1.Resembles t.1 ∧
      t.2 = if fs = [] then .value v else s.2.relocate p.chunks.length lines) ∧
    ((∀ v, r.2 ≠ .value v) → r.1.Resembles t.1 ∧ t.2 = r.2) := by
  intro r s t
  let both := p.append q lines
  let first := (m.load (some both)).runEntries natives both .null p.entries
  have hi (program : Program) (f : Site → Site) (n : Native) (hmem : n ∈ natives.callable) :
      n.Impartial program both f id := (ha n hmem).impartial (hu n hmem) program both f id
  have hfirst : r.1.Resembles first.1 ∧ first.2 = r.2 :=
    ((Resembles.refl m).load (some p) (some both)).runEntries_in_place (hi p _)
      (embeds_append_left hp hes q lines) rfl rfl .null (exists_chunk_of_mem_entries hp)
  obtain ⟨hmachine, houtcome⟩ := hfirst
  have hprogram : first.1.program = some both :=
    congrArg Context.program (context_runEntries (m.load (some both)) natives both .null p.entries)
  have hloaded : (r.1.load (some q)).Resembles first.1 :=
    ⟨hmachine.toSettings, hmachine.globals, hmachine.out⟩
  have hsecond (v : Value) := hloaded.runEntries_embedded (hi q _)
    (embeds_append_right hq hfs p lines) rfl hprogram .null v (exists_chunk_of_mem_entries hq)
  have happend := runEntries_append (m.load (some both)) natives both .null p.entries
    (q.entries.map fun id => id + (p.chunks.length : Int))
  constructor
  · intro v hv
    have ht : t = _ := happend.1 v (houtcome.trans hv)
    obtain ⟨hlast, hvalue⟩ := hsecond v
    rw [ht]
    refine ⟨hlast, hvalue.trans ?_⟩
    simp only [entries_eq_nil_iff hq]
    rfl
  · intro hv
    have ht : t = first := by
      apply happend.2
      intro v hfirst
      exact hv v (houtcome.symm.trans hfirst)
    rw [ht]
    exact ⟨hmachine, houtcome⟩

end

end Machine

end MiniScheme
