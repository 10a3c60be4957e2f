import MiniScheme.Machine.Native

/-! Registration in three tables. If procedures are always entered in all tables, the tables stay in
step and registration is atomic. A name in a later table only breaks this: the earlier tables keep
what they have accepted. -/
namespace MiniScheme.Registry

/-- A registration in all tables, or in one of the later two only. -/
inductive Request where
  | full (name : Bytes) (arity : Int) (handler : Option Handler)
  | callable (name : Bytes) (arity : Int) (handler : Option Handler)
  | signature (name : Bytes) (arity : Int)

def Request.isFull : Request → Bool
  | full .. => true
  | callable .. | signature .. => false

def perform (r : Registry) : Request → Registry × Option Refusal
  | .full name arity handler => r.register name arity handler
  | .callable name arity handler => r.registerCallable name arity handler
  | .signature name arity => r.registerSignature name arity

/-- The tables after a sequence of requests, refused ones included. -/
def after (r : Registry) (past : List Request) : Registry :=
  past.foldl (fun r request => (r.perform request).1) r

structure Entry where
  offered : Option Native
  called : Option Native
  arity : Option Int

def entry (r : Registry) (name : Bytes) : Entry :=
  ⟨lookup? r.catalogue name, r.callable? name, r.signatures.lookup name⟩

def enter (r : Registry) (n : Native) : Registry :=
  ⟨r.catalogue ++ [n], r.callable ++ [n], r.signatures ++ [(n.name, n.arity)]⟩

/-- The procedure is entered in the tables before the one that already has its name. -/
def enterHalfway (r : Registry) (n : Native) : Registry :=
  { r with
    catalogue := r.catalogue ++ [n]
    callable := if (r.callable? n.name).isSome then r.callable else r.callable ++ [n] }

/-- `r.Strays name`: one of the later two tables has the name and the first does not. -/
def Strays (r : Registry) (name : Bytes) : Prop :=
  lookup? r.catalogue name = none ∧
    ((r.callable? name).isSome ∨ (r.signatures.lookup name).isSome)

section

variable {r : Registry} {name other : Bytes} {arity : Int} {handler : Handler} {n : Native}

/-- The possible effects of a registration. -/
inductive Effect (r : Registry) (name : Bytes) (arity : Int) :
    Option Handler → Registry × Option Refusal → Prop where
  | withoutHandler : Effect r name arity none (r, some (.withoutHandler name))
  | withoutName {handler : Handler} (h : name = []) :
      Effect r name arity (some handler) (r, some .withoutName)
  | taken {handler : Handler} (h : name ≠ []) (hc : (lookup? r.catalogue name).isSome) :
      Effect r name arity (some handler) (r, some (.taken name))
  | halfway {handler : Handler} (h : name ≠ []) (hs : r.Strays name) :
      Effect r name arity (some handler)
        (r.enterHalfway ⟨name, arity, handler⟩, some (.taken name))
  | entered {handler : Handler} (h : name ≠ []) (hf : r.entry name = ⟨none, none, none⟩) :
      Effect r name arity (some handler) (r.enter ⟨name, arity, handler⟩, none)

theorem register_effect (r : Registry) (name : Bytes) (arity : Int) (handler : Option Handler) :
    Effect r name arity handler (r.register name arity handler) := by
  unfold register
  split
  · exact .withoutHandler
  rename_i handler
  split
  · exact .withoutName ‹_›
  rename_i hname
  split
  · exact .taken hname ‹_›
  rename_i hcatalogue
  have hfree := Option.not_isSome_iff_eq_none.1 hcatalogue
  by_cases hcallable : (lookup? r.callable name).isSome
  · have hhalf := @Effect.halfway r name arity handler hname ⟨hfree, .inl hcallable⟩
    simpa [registerCallable, callable?, enterHalfway, hcallable] using hhalf
  by_cases hsignature : (r.signatures.lookup name).isSome
  · have hhalf := @Effect.halfway r name arity handler hname ⟨hfree, .inr hsignature⟩
    simpa [registerCallable, registerSignature, callable?, enterHalfway, hcallable, hsignature]
      using hhalf
  · have hentry : r.entry name = ⟨none, none, none⟩ := by
      unfold entry callable?
      rw [hfree, Option.not_isSome_iff_eq_none.1 hcallable,
        Option.not_isSome_iff_eq_none.1 hsignature]
    have hentered := @Effect.entered r name arity handler hname hentry
    simpa [registerCallable, registerSignature, callable?, enter, hcallable, hsignature]
      using hentered

theorem lookup?_append_self {natives : List Native} (h : lookup? natives n.name = none) :
    lookup? (natives ++ [n]) n.name = some n := by
  unfold lookup? at h ⊢
  rw [List.find?_append, h]
  simp

theorem lookup?_append_of_ne (natives : List Native) (h : other ≠ n.name) :
    lookup? (natives ++ [n]) other = lookup? natives other := by
  unfold lookup?
  rw [List.find?_append]
  simp [h.symm]

theorem entry_enter_self (h : r.entry n.name = ⟨none, none, none⟩) :
    (r.enter n).entry n.name = ⟨some n, some n, some n.arity⟩ := by
  obtain ⟨hcatalogue, hcallable, hsignature⟩ := Entry.mk.inj h
  unfold entry enter callable?
  rw [lookup?_append_self hcatalogue, lookup?_append_self hcallable, List.lookup_append, hsignature]
  simp

theorem entry_enter_of_ne (r : Registry) (h : other ≠ n.name) :
    (r.enter n).entry other = r.entry other := by
  unfold entry enter callable?
  rw [lookup?_append_of_ne _ h, lookup?_append_of_ne _ h, List.lookup_append]
  simp [List.lookup_cons, beq_eq_false_iff_ne.2 h]

theorem Strays.entry_ne (h : r.Strays name) : r.entry name ≠ ⟨none, none, none⟩ := by
  intro hentry
  obtain ⟨-, hcallable, hsignature⟩ := Entry.mk.inj hentry
  rcases h.2 with hc | hs
  · rw [hcallable] at hc
    cases hc
  · rw [hsignature] at hs
    cases hs

theorem enterHalfway_ne (r : Registry) (n : Native) : r.enterHalfway n ≠ r := by
  intro h
  have hlength := congrArg (fun r => r.catalogue.length) h
  simp [enterHalfway] at hlength

/-- The three tables hold the same procedures. -/
structure InStep (r : Registry) : Prop where
  callable : r.callable = r.catalogue
  signatures : r.signatures = r.catalogue.map fun n => (n.name, n.arity)

theorem lookup_signatures (natives : List Native) (name : Bytes) :
    (natives.map fun n => (n.name, n.arity)).lookup name =
      (lookup? natives name).map (·.arity) := by
  induction natives with
  | nil => rfl
  | cons n natives ih =>
    rw [List.map_cons, List.lookup_cons, ih]
    unfold lookup?
    by_cases h : n.name = name
    · simp [h]
    · simp [h, beq_eq_false_iff_ne.2 (Ne.symm h)]

theorem InStep.not_strays (h : r.InStep) (name : Bytes) : ¬r.Strays name := by
  rintro ⟨hfree, hcallable | hsignature⟩
  · unfold callable? at hcallable
    rw [h.callable, hfree] at hcallable
    cases hcallable
  · rw [h.signatures, lookup_signatures, hfree] at hsignature
    cases hsignature

theorem InStep.enter (h : r.InStep) (n : Native) : (r.enter n).InStep := by
  constructor
  · exact congrArg (· ++ [n]) h.callable
  · unfold Registry.enter
    rw [h.signatures, List.map_append]
    rfl

theorem InStep.register (h : r.InStep) (name : Bytes) (arity : Int) (handler : Option Handler) :
    (r.register name arity handler).1.InStep := by
  have heffect := register_effect r name arity handler
  generalize r.register name arity handler = s at heffect
  cases heffect with
  | withoutHandler | withoutName | taken => exact h
  | halfway hname hs => exact absurd hs (h.not_strays name)
  | entered => exact h.enter _

/-- Full registrations keep the tables in step. -/
theorem InStep.after (h : r.InStep) {past : List Request} (hpast : ∀ q ∈ past, q.isFull) :
    (r.after past).InStep := by
  induction past generalizing r with
  | nil => exact h
  | cons request past ih =>
    obtain ⟨hrequest, hothers⟩ := List.forall_mem_cons.1 hpast
    cases request with
    | full name arity handler => exact ih (h.register name arity handler) hothers
    | callable | signature => cases hrequest

end

/-- A registration after any sequence of requests. It succeeds iff there is a handler and the name
is nonempty and free in all three tables; these then hold the procedure and are unchanged otherwise.
A refusal leaves the tables unchanged unless a later table has the name and the first does not: then
the procedure stays in the tables before the one that refused it. This cannot happen if all earlier
requests were full registrations. -/
theorem register_after (past : List Request) (name : Bytes) (arity : Int)
    (handler : Option Handler) :
    let r := ({} : Registry).after past
    let s := r.register name arity handler
    (s.2 = none ↔ handler.isSome ∧ name ≠ [] ∧ r.entry name = ⟨none, none, none⟩) ∧
    (s.2 = none → ∀ h ∈ handler,
      s.1.entry name = ⟨some ⟨name, arity, h⟩, some ⟨name, arity, h⟩, some arity⟩ ∧
      ∀ other ≠ name, s.1.entry other = r.entry other) ∧
    (s.2 ≠ none → (s.1 = r ↔ ¬(handler.isSome ∧ name ≠ [] ∧ r.Strays name)) ∧
      ∀ h ∈ handler, s.1 ≠ r → s.1 = r.enterHalfway ⟨name, arity, h⟩) ∧
    ((∀ q ∈ past, q.isFull) → s.2 ≠ none → s.1 = r) := by
  intro r s
  have hinStep (hpast : ∀ q ∈ past, q.isFull) : r.InStep :=
    InStep.after ⟨rfl, rfl⟩ hpast
  have heffect : Effect r name arity handler s := register_effect r name arity handler
  clear_value r s
  cases heffect with
  | withoutHandler => simp
  | withoutName hname => simp [hname]
  | @taken handler hname hc =>
    have hentry : r.entry name ≠ ⟨none, none, none⟩ := by
      intro h
      rw [(Entry.mk.inj h).1] at hc
      cases hc
    have hstrays : ¬r.Strays name := by
      rintro ⟨h, -⟩
      rw [h] at hc
      cases hc
    simp [hname, hentry, hstrays]
  | @halfway handler hname hs =>
    have hpast : ¬∀ q ∈ past, q.isFull := fun h => (hinStep h).not_strays name hs
    simp [hname, hs.entry_ne, hs, hpast, enterHalfway_ne]
  | @entered handler hname hf =>
    have hself := @entry_enter_self r ⟨name, arity, handler⟩ hf
    have hother (other : Bytes) (h : other ≠ name) :=
      @entry_enter_of_ne other ⟨name, arity, handler⟩ r h
    simpa [hname, hf] using ⟨hself, hother⟩

/-- The machine already has the name: the procedure is refused but offered from then on, with an
arity that differs from that of the procedure called. -/
theorem register_after_callable :
    let x := ascii "x"
    let handler : Handler := fun m _ => (m.console, .value .null)
    let r := ({} : Registry).after [.callable x 2 (some handler)]
    let s := r.register x 1 (some handler)
    s.2 = some (.taken x) ∧ r.entry x = ⟨none, some ⟨x, 2, handler⟩, none⟩ ∧
      s.1.entry x = ⟨some ⟨x, 1, handler⟩, some ⟨x, 2, handler⟩, none⟩ :=
  ⟨rfl, rfl, rfl⟩

end MiniScheme.Registry
