import MiniScheme.Proofs.Machine.Traceback

/-! Consecutive runs on one machine. A run discards what an earlier one has left open when it
executes its first chunk. A run whose first entry is outside the table ends before that, and its
error lists the frames of the earlier run. -/
namespace MiniScheme

/-- The first entry is `id`, which is outside the table. -/
def Program.StartsOutside (p : Program) (id : Int) : Prop :=
  p.entries.head? = some id ∧ p.chunk? id = none

namespace Machine

/-- A machine that has not run anything, with the settings, bindings and console of `m`. -/
def fresh (m : Machine) : Machine :=
  { m.toSettings with globals := m.globals, console := m.console }

def runAll (m : Machine) (natives : Registry) (programs : List (Option Program)) : Machine :=
  programs.foldl (fun m program => (m.run natives program).1) m

section

variable {m : Machine} {natives : Registry} {p : Program} {last v : Value} {e : RunError}
  {ids : List Int}

theorem execute_reset (m : Machine) (natives : Registry) (c : Option Chunk) :
    m.reset.execute natives c = m.execute natives c := by
  cases c with
  | none => rfl
  | some c => rfl

theorem runEntries_reset {id : Int} {c : Option Chunk} (hc : p.chunk? id = some c) :
    m.reset.runEntries natives p last (id :: ids) = m.runEntries natives p last (id :: ids) := by
  simp only [runEntries, hc]
  rw [execute_reset]

theorem runEntries_outside {id : Int} (hid : p.chunk? id = none) :
    m.runEntries natives p last (id :: ids) =
      (m, .error last ⟨.unknownEntry id, .none, m.leftover⟩) := by
  simp only [runEntries, hid]

theorem run_outside {id : Int} (h : p.StartsOutside id) (m : Machine) (natives : Registry) :
    m.run natives (some p) =
      (m.load (some p), .error .null ⟨.unknownEntry id, .none, m.leftover⟩) := by
  obtain ⟨hhead, hid⟩ := h
  obtain ⟨ids, hentries⟩ := List.head?_eq_some_iff.1 hhead
  change (m.load (some p)).runEntries natives p .null p.entries = _
  rw [hentries]
  exact runEntries_outside hid

/-- A run has the same effect on bindings and console as on a fresh machine, and the same outcome
unless the first entry is outside the table. -/
theorem run_fresh (m : Machine) (natives : Registry) (program : Option Program) :
    (m.run natives program).1.fresh = (m.fresh.run natives program).1.fresh ∧
      ((m.run natives program).2 = (m.fresh.run natives program).2 ∨
        ∃ p id, program = some p ∧ p.StartsOutside id) := by
  cases program with
  | none => exact ⟨rfl, .inl rfl⟩
  | some p =>
    have hrun (n : Machine) : n.run natives (some p) =
        (n.load (some p)).runEntries natives p .null p.entries := rfl
    cases hentries : p.entries with
    | nil =>
      rw [hrun, hrun, hentries]
      exact ⟨rfl, .inl rfl⟩
    | cons id ids =>
      cases hid : p.chunk? id with
      | none =>
        have houtside : p.StartsOutside id := ⟨by rw [hentries]; rfl, hid⟩
        rw [run_outside houtside, run_outside houtside]
        exact ⟨rfl, .inr ⟨p, id, rfl, houtside⟩⟩
      | some c =>
        have hload : m.fresh.load (some p) = (m.load (some p)).reset := rfl
        rw [hrun, hrun, hentries, hload, runEntries_reset hid]
        exact ⟨rfl, .inl rfl⟩

/-- A successful chunk leaves no frame open. -/
theorem leftover_of_value {c : Option Chunk} (hv : (m.execute natives c).2 = .value v) :
    (m.execute natives c).1.leftover = [] := by
  cases c with
  | none => rfl
  | some c =>
    rw [execute_eq] at hv ⊢
    unfold interpret at hv ⊢
    generalize (m.context natives).activate 1 c _ = r at hv ⊢
    match r with
    | (w, .ok u) => rfl
    | (w, .error ⟨.refused cause, sites, stack⟩) => cases hv
    | (w, .error ⟨.failed e, sites, stack⟩) => cases hv
    | (w, .error ⟨.crashed, sites, stack⟩) => cases hv

/-- A failing chunk leaves the frames that its error lists. -/
theorem leftover_of_error (hn : ∀ n ∈ natives.callable, n.Aloof) {c : Option Chunk}
    (he : (m.execute natives c).2 = .error v e) :
    (m.execute natives c).1.leftover = e.stack ∧ (e.site = .none → e.stack = []) := by
  cases c with
  | none =>
    cases he
    exact ⟨rfl, fun _ => rfl⟩
  | some c =>
    obtain ⟨s, hreaches, hlast⟩ := Context.exists_last (m.context natives) (m.start c)
    obtain ⟨hcode, -⟩ := hreaches.nests (start_nests m natives c)
    rcases Context.step_raisedAt hcode hlast he with ⟨i, hi, hraised⟩ | hrelays
    · obtain ⟨hsite, -, hleftover⟩ := hraised v e he
      refine ⟨hleftover, ?_⟩
      intro hnone
      have hoffset : (i : Int) = -1 := congrArg Site.offset (hsite.symm.trans hnone)
      omega
    · exact absurd hrelays (Context.not_relays_of_aloof hn s e)

/-- Failing entries leave the sites of the error. An error without a site has an empty stack unless
the first entry is outside the table. -/
theorem leftover_of_runEntries (hn : ∀ n ∈ natives.callable, n.Aloof) (m : Machine) (last : Value)
    (ids : List Int) (he : (m.runEntries natives p last ids).2 = .error v e) :
    (m.runEntries natives p last ids).1.leftover = e.stack ∧
      (e.site = .none → e.stack = [] ∨
        ∃ id, ids.head? = some id ∧ p.chunk? id = none ∧ e.stack = m.leftover) := by
  induction ids generalizing m last with
  | nil => cases he
  | cons id ids ih =>
    cases hid : p.chunk? id with
    | none =>
      rw [runEntries_outside hid] at he ⊢
      cases he
      exact ⟨rfl, fun _ => .inr ⟨id, rfl, hid, rfl⟩⟩
    | some c =>
      have hvalue (u : Value) := @leftover_of_value m natives u c
      have herror (u : Value) (e' : RunError) := @leftover_of_error m natives u e' hn c
      simp only [runEntries, hid] at he ⊢
      generalize m.execute natives c = r at hvalue herror he ⊢
      obtain ⟨next, outcome⟩ := r
      cases outcome with
      | value u =>
        obtain ⟨hleftover, hstack⟩ := ih next u he
        refine ⟨hleftover, ?_⟩
        intro hnone
        rcases hstack hnone with hnil | ⟨_, _, _, heq⟩
        · exact .inl hnil
        · exact .inl (heq.trans (hvalue u rfl))
      | error u e' =>
        cases he
        obtain ⟨hleftover, hstack⟩ := herror v e rfl
        exact ⟨hleftover, fun hnone => .inl (hstack hnone)⟩
      | crash => cases he

end

/-- A run after other runs compared with the same run on a fresh machine. Bindings and output agree,
and so do values and errors unless the program starts outside its table. Then the error has the
sites left by earlier runs as its stack, so it differs from that on a fresh machine iff there are
any. If native procedures take no part in runs, a failing run leaves the stack of its error, and no
other error without a site has a nonempty stack. -/
theorem run_runAll (m : Machine) (natives : Registry) (earlier : List (Option Program))
    (program : Option Program) :
    let before := m.runAll natives earlier
    let r := before.run natives program
    let f := before.fresh.run natives program
    r.1.globals = f.1.globals ∧ r.1.console = f.1.console ∧
      ((∀ p id, program = some p → ¬p.StartsOutside id) → r.2 = f.2) ∧
      (∀ p id, program = some p → p.StartsOutside id →
        r.2 = .error .null ⟨.unknownEntry id, .none, before.leftover⟩ ∧
        f.2 = .error .null ⟨.unknownEntry id, .none, []⟩) ∧
      ((∀ n ∈ natives.callable, n.Aloof) → ∀ v e, r.2 = .error v e →
        r.1.leftover = e.stack ∧
          (e.site = .none → e.stack = [] ∨ ∃ p id, program = some p ∧ p.StartsOutside id)) := by
  intro before r f
  obtain ⟨hfresh, houtcome⟩ := run_fresh before natives program
  have hglobals : r.1.fresh.globals = f.1.fresh.globals := congrArg globals hfresh
  have hconsole : r.1.fresh.console = f.1.fresh.console := congrArg console hfresh
  refine ⟨hglobals, hconsole, ?_, ?_, ?_⟩
  · intro hinside
    rcases houtcome with heq | ⟨p, id, hp, houtside⟩
    · exact heq
    · exact absurd houtside (hinside p id hp)
  · rintro p id rfl houtside
    have hr : r = _ := run_outside houtside before natives
    have hf : f = _ := run_outside houtside before.fresh natives
    rw [hr, hf]
    exact ⟨rfl, rfl⟩
  · intro hn v e he
    cases program with
    | none => cases he
    | some p =>
      obtain ⟨hleftover, hstack⟩ :=
        leftover_of_runEntries hn (before.load (some p)) .null p.entries he
      refine ⟨hleftover, ?_⟩
      intro hnone
      rcases hstack hnone with hnil | ⟨id, hhead, hid, -⟩
      · exact .inl hnil
      · exact .inr ⟨p, id, rfl, hhead, hid⟩

/-- A program without chunks after a failed run: its error lists the site of the earlier failure. -/
theorem run_runAll_stale :
    let failing : Program := ⟨[some { code := [.load] }], [0]⟩
    let outside : Program := ⟨[], [0]⟩
    let before := ({} : Machine).runAll {} [some failing]
    (before.run {} (some outside)).2 =
        .error .null ⟨.unknownEntry 0, .none, [⟨0, -1, 0⟩]⟩ ∧
      (before.fresh.run {} (some outside)).2 = .error .null ⟨.unknownEntry 0, .none, []⟩ := by
  decide +kernel

end Machine

end MiniScheme
