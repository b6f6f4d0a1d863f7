import ClassScript.Proofs.SafeRules

/-!
# Sessions keep the object model

A run starts and ends at the top level, so what a session keeps between runs fits the world that the
last run has reached. The world of a session only grows, from the empty one on.
-/

namespace ClassScript

open Run

theorem Frame.sound_top (w : World) : Frame.top.Sound w :=
  .outside rfl rfl rfl

theorem Context.fits_initial (input : String) : (Context.initial input).Fits .empty where
  classes := rfl
  size := rfl
  assigned i x := by simp [World.empty, Context.initial]
  heap i fields h := by simp [Context.initial] at h
  globals v h := by cases h
  noGlobalThis := rfl
  functions f h := by cases h
  frame := Frame.sound_top _

namespace Session

variable {s : Session} {w : World}

theorem fits_fresh (h : s.context.Fits w) : s.fresh.Fits w :=
  (h.withFrame (Frame.sound_top w)).recast _ _ _ _ _

theorem fits_keep {c : Context} (h : c.Fits w) : (s.keep c).context.Fits w :=
  h.withFrame (Frame.sound_top w)

/-- A run of any source has a history, whose events are sound in worlds on the way to the one that
the session has reached then. -/
theorem run_safe (hs : s.context.Fits w) (debug : Bool) (source : String) :
    ∃ events u, s.Passes debug source events ∧ w.Passage events u ∧
      (s.run debug source).2.context.Fits u := by
  have began : (s.fresh.event .began).Sound w := ⟨trivial, fits_fresh hs⟩
  obtain ⟨u₁, _, hpass₁, hfits₁, hself₁, hends₁, _⟩ :=
    safe_parseLogged (s.environment debug) source s.fresh (fits_fresh hs) rfl
  have grows₁ := hpass₁.grows
  rcases hparse : parseLogged (s.environment debug) source s.fresh with ⟨stop | p, c⟩
  · rw [hparse] at hfits₁ hends₁
    have ended : (c.event (.ended (.error stop))).Sound u₁ := ⟨hends₁, hfits₁.recast _ _ _ _ _⟩
    refine ⟨_, u₁, .refused hparse,
      .event (.refl w) began (.event grows₁ ended (.done (.refl u₁))), ?_⟩
    simp only [run, hparse]
    exact fits_keep hfits₁
  · rw [hparse] at hfits₁ hself₁ hends₁
    have hk := evaluators_safe (s.environment debug) s.limits.steps
    obtain ⟨u₂, inner, hpass₂, hfits₂, _, hends₂, history⟩ :=
      safe_execProgram hk hends₁ c hfits₁ hself₁
    rw [← execProgram_eq] at hfits₂ hends₂ history
    rcases hrun : execProgram (s.environment debug) s.limits.steps p c with ⟨result, c'⟩
    rw [hrun] at hfits₂ hends₂
    have ended : (c'.event (.ended result)).Sound u₂ := ⟨hends₂, hfits₂.recast _ _ _ _ _⟩
    refine ⟨_, u₂, .executed hparse hrun history, .event (.refl w) began
      ((hpass₂.after grows₁).append (.event (.refl u₂) ended (.done (.refl u₂)))), ?_⟩
    simp only [run, hparse, hrun]
    rcases result with stop | (_ | _ | _ | _) <;> exact fits_keep hfits₂

/-- Through all its runs a session keeps the object model. -/
theorem Lived.safe {past : List Event} (h : s.Lived past) :
    ∃ w, World.empty.Passage past w ∧ s.context.Fits w := by
  induction h with
  | start files directory captures input =>
    exact ⟨.empty, .done (.refl _), Context.fits_initial input⟩
  | change files directory captures limits _ ih => exact ih
  | run debug source _ passes ih =>
    obtain ⟨w, hpast, hfits⟩ := ih
    obtain ⟨events, u, passes', hpass, hfits'⟩ := run_safe hfits debug source
    cases passes.unique passes'
    exact ⟨u, hpast.append hpass, hfits'⟩

/-- The history of one more run goes on from all that the session has lived through. -/
theorem Lived.passage {past : List Event} (h : s.Lived past) (debug : Bool) (source : String) :
    ∃ events w, s.Passes debug source events ∧ World.empty.Passage (past ++ events) w := by
  obtain ⟨w, hpast, hfits⟩ := h.safe
  obtain ⟨events, u, passes, hpass, _⟩ := run_safe hfits debug source
  exact ⟨events, u, passes, hpast.append hpass⟩

end Session

end ClassScript
