import LinuxIpc.Lib.Transition

namespace LinuxIpc.Sys
set_option autoImplicit true

/-- A step of `S` that meets the guard is matched by one of `T`, or by none where what it does
cannot be told in `T`. -/
structure Simulates (S : Sys σ α) (G : σ → α → Prop) (T : Sys τ β) (R : σ → τ → Prop) :
    Prop where
  init : ∀ s, S.init s → ∃ t, T.init t ∧ R s t
  step : ∀ s a s' t, R s t → G s a → S.step s a = some s' →
    R s' t ∨ ∃ b t', T.step t b = some t' ∧ R s' t'

theorem Simulates.reachable {S : Sys σ α} {T : Sys τ β} {R : σ → τ → Prop}
    (h : S.Simulates G T R) (hs : S.ReachableIf G s) : ∃ t, T.Reachable t ∧ R s t := by
  induction hs with
  | init hs =>
    obtain ⟨t, ht, hr⟩ := h.init _ hs
    exact ⟨t, .init ht, hr⟩
  | step _ hg hs ih =>
    obtain ⟨t, ht, hr⟩ := ih
    rcases h.step _ _ _ _ hr hg hs with hr | ⟨b, t', hb, hr⟩
    · exact ⟨t, ht, hr⟩
    · exact ⟨t', .step ht trivial hb, hr⟩

end LinuxIpc.Sys
