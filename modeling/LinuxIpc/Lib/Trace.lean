import LinuxIpc.Lib.Transition

namespace LinuxIpc.Sys
set_option autoImplicit true

/-- What is seen of the steps of a run, one after the other. -/
def trace (S : Sys σ α) (see : σ → α → List β) : List α → σ → List β
  | [], _ => []
  | a :: as, s => see s a ++ match S.step s a with
    | some t => S.trace see as t
    | none => []

theorem trace_cons {S : Sys σ α} (see : σ → α → List β) (h : S.step s a = some t) :
    S.trace see (a :: as) s = see s a ++ S.trace see as t := by
  rw [trace, h]

end LinuxIpc.Sys
