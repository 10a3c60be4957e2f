import MiniScheme.Machine.Globals
import MiniScheme.Value.Printer

/-! Values without a hollow pair in them. They are the values that have a text. -/
namespace MiniScheme

namespace Value

/-- Every pair in the value has its two parts. -/
def isSolid : Value → Bool
  | pair left right => left.isSolid && right.isSolid
  | hollow => false
  | _ => true

theorem isSolid_pair {left right : Value} :
    (pair left right).isSolid ↔ left.isSolid ∧ right.isSolid := by
  simp [isSolid]

theorem render_isSome (style : Style) (v : Value) :
    ((v.render style).isSome ↔ v.isSolid) ∧ ((v.renderTail style).isSome ↔ v.isSolid) := by
  induction v with
  | pair left right ihl ihr =>
    obtain ⟨hl, -⟩ := ihl
    obtain ⟨-, hr⟩ := ihr
    rw [isSolid_pair, ← hl, ← hr]
    cases hleft : render style left <;> cases hright : renderTail style right <;>
      simp [render, renderTail, hleft, hright]
  | hollow => simp [render, renderTail, isSolid]
  | null | eof | boolean _ | number _ | string _ | symbol _ | char _ | bytes _ | unknown _ =>
    simp [render, renderTail, isSolid]

/-- Exactly the solid values have a text. -/
theorem write?_isSome_iff (v : Value) : v.write?.isSome ↔ v.isSolid :=
  (render_isSome .written v).1

theorem display?_isSome_iff (v : Value) : v.display?.isSome ↔ v.isSolid :=
  (render_isSome .displayed v).1

end Value

namespace Globals

def isSolid (g : Globals) : Bool :=
  g.entries.all fun entry => entry.2.isSolid

theorem isSolid_bind {g : Globals} {name : Bytes} {v : Value} (hg : g.isSolid) (hv : v.isSolid) :
    (g.bind name v).isSolid := by
  refine List.all_eq_true.2 fun entry hentry => ?_
  rcases mem_insert hentry with rfl | hentry
  · exact hv
  · exact List.all_eq_true.1 hg entry hentry

theorem isSolid_of_find? {g : Globals} {name : Bytes} {v : Value} (hg : g.isSolid)
    (h : g.find? name = some v) : v.isSolid := by
  obtain ⟨before, after, hentries, -⟩ := List.lookup_eq_some_iff.1 h
  have hmem : (name, v) ∈ g.entries := by
    rw [hentries]
    exact List.mem_append_right before List.mem_cons_self
  exact List.all_eq_true.1 hg _ hmem

end Globals

end MiniScheme
