import Mathlib.Logic.Function.Basic

namespace LinuxIpc
set_option autoImplicit true

open Function (update)

/-- The cells 1, 2, .. of an array hold a stack, its top last. -/
def Stacked (mem : Int → α) : List α → Prop
  | [] => True
  | c :: cs => mem (cs.length + 1) = c ∧ Stacked mem cs

namespace Stacked

theorem update_above {mem : Int → α} (h : Stacked mem cs) (hj : (cs.length : Int) < j) (c : α) :
    Stacked (update mem j c) cs := by
  induction cs with
  | nil => trivial
  | cons d cs ih =>
    have hlen : (cs.length : Int) + 1 < j := by simpa using hj
    refine ⟨?_, ih h.2 (by omega)⟩
    rw [Function.update_of_ne (Int.ne_of_lt hlen)]
    exact h.1

theorem push {mem : Int → α} (h : Stacked mem cs) (hj : j = (cs.length : Int) + 1) (c : α) :
    Stacked (update mem j c) (c :: cs) := by
  subst hj
  exact ⟨Function.update_self _ _ _, h.update_above (Int.lt_succ _) c⟩

theorem top {mem : Int → α} (h : Stacked mem (c :: cs)) (hj : j = ((c :: cs).length : Int)) :
    mem j = c := by
  subst hj
  exact h.1

end Stacked

end LinuxIpc
