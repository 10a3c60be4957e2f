import MiniScheme.Cli.Repl

/-! How a session splits its input into forms. Each group of lines is the shortest that parses or
fails permanently, and a session acts on the groups in order. -/
namespace MiniScheme.Cli

/-- More text could complete the text. -/
def isUnfinished (text : Bytes) : Bool :=
  match parse text with
  | .ok _ => false
  | .error e => e.isIncomplete

def joined (lines : List Bytes) : Bytes :=
  Bytes.join [newline] lines

/-- The text of the lines is unfinished, and so is that of every shorter prefix. -/
def AreWaiting (lines : List Bytes) : Prop :=
  ∀ p, p <+: lines → p ≠ [] → isUnfinished (joined p) = true

/-- The texts that repeated reading of forms gives. -/
def forms (lines : List Bytes) : List Bytes :=
  match _h : readForm [] lines with
  | none => []
  | some (text, rest) => text :: forms rest
termination_by lines.length
decreasing_by exact length_readForm _h

theorem forms_of_none {lines : List Bytes} (h : readForm [] lines = none) : forms lines = [] := by
  rw [forms]
  split <;> simp_all

theorem forms_of_some {text : Bytes} {lines rest : List Bytes}
    (h : readForm [] lines = some (text, rest)) : forms lines = text :: forms rest := by
  rw [forms]
  split <;> simp_all

theorem joined_concat {read : List Bytes} (h : read ≠ []) (line : Bytes) :
    joined (read ++ [line]) = joined read ++ newline :: line := by
  induction read with
  | nil => exact absurd rfl h
  | cons first read ih =>
    cases read with
    | nil => simp [joined, Bytes.join]
    | cons second read =>
      have htail := ih (List.cons_ne_nil _ _)
      simp only [joined, List.cons_append, Bytes.join] at htail ⊢
      rw [htail]
      simp

section

variable {read more lines : List Bytes} {line : Bytes}

theorem areWaiting_nil : AreWaiting [] := by
  intro p hp hne
  exact absurd (List.prefix_nil.1 hp) hne

theorem AreWaiting.concat (h : AreWaiting read)
    (hline : isUnfinished (joined (read ++ [line])) = true) : AreWaiting (read ++ [line]) := by
  intro p hp hne
  rcases List.prefix_concat_iff.1 hp with rfl | hp
  · exact hline
  · exact h p hp hne

theorem AreWaiting.of_append (h : AreWaiting (read ++ more)) : AreWaiting read :=
  fun p hp hne => h p (hp.trans (List.prefix_append read more)) hne

/-- Unfinished text is nonempty, since the empty text parses. -/
theorem AreWaiting.joined_eq_nil_iff (h : AreWaiting read) : joined read = [] ↔ read = [] := by
  constructor
  · intro hnil
    apply Decidable.byContradiction
    intro hne
    have hread := h read (List.prefix_refl read) hne
    have hempty : isUnfinished [] = false := by decide +kernel
    rw [hnil, hempty] at hread
    cases hread
  · rintro rfl
    rfl

theorem AreWaiting.add (h : AreWaiting read) (line : Bytes) :
    Reading.add (joined read) line =
      if isUnfinished (joined (read ++ [line])) then .unfinished (joined (read ++ [line]))
      else .form (joined (read ++ [line])) := by
  have htext : (if joined read = [] then line else joined read ++ newline :: line) =
      joined (read ++ [line]) := by
    by_cases hread : read = []
    · subst hread
      rfl
    · rw [if_neg (mt h.joined_eq_nil_iff.1 hread), joined_concat hread]
  simp only [Reading.add, htext]
  cases hparse : parse (joined (read ++ [line])) with
  | ok es =>
    have hfinished : isUnfinished (joined (read ++ [line])) = false := by
      simp only [isUnfinished, hparse]
    rw [hfinished]
    rfl
  | error e =>
    have hfinished : isUnfinished (joined (read ++ [line])) = e.isIncomplete := by
      simp only [isUnfinished, hparse]
    rw [hfinished]

/-- Unfinished lines are accumulated. -/
theorem readForm_append (h : AreWaiting (read ++ more)) (lines : List Bytes) :
    readForm (joined read) (more ++ lines) = readForm (joined (read ++ more)) lines := by
  induction more generalizing read with
  | nil => rw [List.nil_append, List.append_nil]
  | cons line more ih =>
    have hmore : read ++ line :: more = read ++ [line] ++ more := by simp
    rw [hmore] at h ⊢
    have hline := h.of_append (read ++ [line]) (List.prefix_refl _) (by simp)
    rw [List.cons_append, readForm, h.of_append.of_append.add, if_pos hline]
    exact ih h

theorem readForm_of_areWaiting (h : AreWaiting lines) : readForm [] lines = none := by
  have hread := @readForm_append [] lines h []
  rw [List.append_nil] at hread
  exact hread

theorem readForm_group (h : AreWaiting read)
    (hform : isUnfinished (joined (read ++ [line])) = false) (lines : List Bytes) :
    readForm [] (read ++ line :: lines) = some (joined (read ++ [line]), lines) := by
  have hread := @readForm_append [] read h (line :: lines)
  rw [List.nil_append, readForm, h.add, hform] at hread
  exact hread

end

/-- `Splits lines groups dropped`: the lines split into groups, each complete with its last line and
not before, and unfinished lines. -/
inductive Splits : List Bytes → List (List Bytes) → List Bytes → Prop where
  | dropped {lines : List Bytes} (h : AreWaiting lines) : Splits lines [] lines
  | group {read lines dropped : List Bytes} {line : Bytes} {groups : List (List Bytes)}
      (h : AreWaiting read) (hform : isUnfinished (joined (read ++ [line])) = false)
      (hs : Splits lines groups dropped) :
      Splits (read ++ line :: lines) ((read ++ [line]) :: groups) dropped

theorem exists_splits {read : List Bytes} (h : AreWaiting read) (lines : List Bytes) :
    ∃ groups dropped, Splits (read ++ lines) groups dropped := by
  induction lines generalizing read with
  | nil =>
    rw [List.append_nil]
    exact ⟨[], read, .dropped h⟩
  | cons line lines ih =>
    cases hform : isUnfinished (joined (read ++ [line])) with
    | false =>
      obtain ⟨groups, dropped, hs⟩ := ih areWaiting_nil
      exact ⟨(read ++ [line]) :: groups, dropped, .group h hform hs⟩
    | true =>
      have hmore : read ++ line :: lines = read ++ [line] ++ lines := by simp
      rw [hmore]
      exact ih (h.concat hform)

section

variable {lines dropped : List Bytes} {groups : List (List Bytes)}

theorem Splits.flatten (h : Splits lines groups dropped) : lines = groups.flatten ++ dropped := by
  induction h with
  | dropped => rfl
  | group h hform _ ih =>
    rw [ih]
    simp

theorem Splits.areWaiting (h : Splits lines groups dropped) : AreWaiting dropped := by
  induction h with
  | dropped h => exact h
  | group _ _ _ ih => exact ih

theorem Splits.forms (h : Splits lines groups dropped) : forms lines = groups.map joined := by
  induction h with
  | dropped h => exact forms_of_none (readForm_of_areWaiting h)
  | group h hform _ ih => rw [forms_of_some (readForm_group h hform _), ih, List.map_cons]

/-- The group `g` is read from the lines `g ++ rest` as one form, and is their shortest prefix that
is not unfinished. -/
structure IsForm (g rest : List Bytes) : Prop where
  ne_nil : g ≠ []
  read : readForm [] (g ++ rest) = some (joined g, rest)
  finished : isUnfinished (joined g) = false
  shortest : ∀ p, p <+: g ++ rest → p ≠ [] → isUnfinished (joined p) = false → g.length ≤ p.length

theorem isForm_group {read rest : List Bytes} {line : Bytes} (h : AreWaiting read)
    (hform : isUnfinished (joined (read ++ [line])) = false) : IsForm (read ++ [line]) rest where
  ne_nil := by simp
  read := by
    rw [List.append_assoc]
    exact readForm_group h hform rest
  finished := hform
  shortest := by
    intro p hp hne hfinished
    apply Decidable.byContradiction
    intro hlt
    rw [List.length_append, List.length_singleton] at hlt
    have hread : read <+: read ++ [line] ++ rest := by
      rw [List.append_assoc]
      exact List.prefix_append _ _
    have hwaiting := h p (List.prefix_of_prefix_length_le hp hread (by omega)) hne
    rw [hfinished] at hwaiting
    cases hwaiting

theorem Splits.isForm (h : Splits lines groups dropped) {before after : List (List Bytes)}
    {g : List Bytes} (hg : groups = before ++ g :: after) :
    IsForm g (after.flatten ++ dropped) := by
  induction h generalizing before with
  | dropped => simp at hg
  | @group read lines dropped line groups h hform hs ih =>
    cases before with
    | nil =>
      obtain ⟨rfl, rfl⟩ := List.cons.inj hg
      exact isForm_group h hform
    | cons first before => exact ih (List.cons.inj hg).2

end

namespace Repl

def asking : Nat → Bytes
  | 0 => []
  | count + 1 => ascii "scm> " ++ (List.replicate count (ascii "...> ")).flatten

/-- A session over grouped lines. -/
def serve (r : Repl) (natives : Registry) : List (List Bytes) → List Bytes → Repl × Output
  | [], dropped => (r, ⟨asking (dropped.length + 1), []⟩ ++ ⟨ascii "\n", []⟩)
  | g :: groups, dropped =>
    let turn := r.act natives (joined g)
    let output := ⟨asking g.length, []⟩ ++ turn.output
    if turn.isOver then (turn.repl, output)
    else
      let (last, more) := turn.repl.serve natives groups dropped
      (last, output ++ more)

section

variable {r : Repl} {natives : Registry} {read more lines dropped : List Bytes} {line : Bytes}
  {groups : List (List Bytes)}

theorem asking_succ (h : AreWaiting read) :
    asking (read.length + 1) = asking read.length ++ prompt (joined read) := by
  unfold prompt
  cases read with
  | nil => rfl
  | cons first read =>
    rw [if_neg (mt h.joined_eq_nil_iff.1 (List.cons_ne_nil _ _))]
    simp [asking, List.replicate_succ']

theorem prompts_append (h : AreWaiting (read ++ more)) (lines : List Bytes) :
    asking read.length ++ prompts (joined read) (more ++ lines) =
      asking (read ++ more).length ++ prompts (joined (read ++ more)) lines := by
  induction more generalizing read with
  | nil => rw [List.nil_append, List.append_nil]
  | cons line more ih =>
    have hmore : read ++ line :: more = read ++ [line] ++ more := by simp
    rw [hmore] at h ⊢
    have hline := h.of_append (read ++ [line]) (List.prefix_refl _) (by simp)
    have hlength : (read ++ [line]).length = read.length + 1 := List.length_append
    rw [← ih h, List.cons_append, prompts, h.of_append.of_append.add, if_pos hline, hlength,
      asking_succ h.of_append.of_append, List.append_assoc]

theorem prompts_of_areWaiting (h : AreWaiting lines) :
    prompts [] lines = asking (lines.length + 1) := by
  have hprompts := @prompts_append [] lines h []
  rw [List.append_nil] at hprompts
  exact hprompts.trans (asking_succ h).symm

theorem prompts_group (h : AreWaiting read)
    (hform : isUnfinished (joined (read ++ [line])) = false) (lines : List Bytes) :
    prompts [] (read ++ line :: lines) = asking (read ++ [line]).length := by
  have hprompts := @prompts_append [] read h (line :: lines)
  rw [List.nil_append, prompts, h.add, hform] at hprompts
  refine hprompts.trans ?_
  rw [List.length_append, List.length_singleton, asking_succ h]
  exact congrArg _ (List.append_nil _)

theorem session_of_none (h : readForm [] lines = none) :
    r.session natives lines = (r, ⟨prompts [] lines, []⟩ ++ ⟨ascii "\n", []⟩) := by
  rw [session]
  split <;> simp_all

theorem session_of_some {text : Bytes} {rest : List Bytes}
    (h : readForm [] lines = some (text, rest)) :
    r.session natives lines =
      let turn := r.act natives text
      let output := ⟨prompts [] lines, []⟩ ++ turn.output
      if turn.isOver then (turn.repl, output)
      else
        let (last, more) := turn.repl.session natives rest
        (last, output ++ more) := by
  rw [session]
  split <;> simp_all

/-- A session acts on the groups of its lines, in order, until it is over. -/
theorem session_eq_serve (h : Splits lines groups dropped) :
    r.session natives lines = r.serve natives groups dropped := by
  induction h generalizing r with
  | dropped h =>
    rw [session_of_none (readForm_of_areWaiting h), prompts_of_areWaiting h, serve]
  | group h hform _ ih =>
    rw [session_of_some (readForm_group h hform _), prompts_group h hform, serve]
    simp only [ih]

end

end Repl

/-- The lines of an input split into groups and a remainder. Reading form by form yields the texts
of the groups in order; each group is the shortest nonempty prefix of the remaining lines whose text
is not unfinished. The remainder is dropped at the end of the input, and every nonempty prefix of it
is unfinished. A session acts on exactly these texts. -/
theorem exists_groups (lines : List Bytes) :
    ∃ (groups : List (List Bytes)) (dropped : List Bytes),
      lines = groups.flatten ++ dropped ∧
      (∀ before g after, groups = before ++ g :: after → IsForm g (after.flatten ++ dropped)) ∧
      readForm [] dropped = none ∧ AreWaiting dropped ∧
      forms lines = groups.map joined ∧
      ∀ (it : Interpreter) (history : History) (natives : Registry),
        let r : Repl := { interpreter := it, history }
        r.session natives lines = r.serve natives groups dropped := by
  obtain ⟨groups, dropped, h⟩ := exists_splits areWaiting_nil lines
  exact ⟨groups, dropped, h.flatten, fun _ _ _ => h.isForm, readForm_of_areWaiting h.areWaiting,
    h.areWaiting, h.forms, fun _ _ _ => Repl.session_eq_serve h⟩

/-- An empty line is a form of its own unless a form or a string is open. -/
example :
    forms [ascii "(f", [], ascii "\"a", [], ascii "\")", [], ascii "x y", ascii "("] =
      [ascii "(f\n\n\"a\n\n\")", [], ascii "x y"] := by
  decide +kernel

end MiniScheme.Cli
