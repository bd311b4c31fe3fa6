import ProtoOs.Lib.Duty

/-!
# What is set up once

Some blocks of the main flow set something up, and everything after them,
the handlers included, only reads it. If it is as it should be where those
blocks are left, it is so in every later state of every run, whatever is
delivered and however deep (`Run.standing`).
-/

namespace ProtoOs.Lib

variable {L S V E I P : Type} [DecidableEq L]

/-- The handlers leave `v` alone, and so do all blocks that are not
`early`. -/
structure Reads (sys : System L S E I P) (v : S → V) (early : P → Prop) : Prop where
  block : ∀ p, ¬early p → (sys.block p).Fixes v
  irq : ∀ i, (sys.irq i).Fixes v
  trap : sys.trap.Fixes v
  fatal : ∀ e, (sys.fatal e).Fixes v

/-- What is on the stack leaves `v` alone; past the early blocks the main
flow does too, and `v` is as `Q` says. -/
structure Cpu.Standing (v : S → V) (early : P → Prop) (Q : V → Prop) (m : Cpu L S E P) :
    Prop where
  frames : ∀ f ∈ m.frames, f.code.Fixes v
  main : early m.pc ∨ m.code.Fixes v ∧ Q (v m.cfg.data)

namespace Cpu.Standing

variable {sys : System L S E I P} {v : S → V} {early : P → Prop} {Q : V → Prop}
  {m m' : Cpu L S E P}

omit [DecidableEq L] in
/-- A handler is entered. -/
theorem enter (h : m.Standing v early Q) {code : Prog L S E Unit} (hcode : code.Fixes v)
    (kind : FrameKind) (closes : Bool) : (m.enter kind closes code).Standing v early Q where
  frames f hf := by
    rcases List.mem_cons.mp hf with rfl | hf
    · exact hcode
    · exact h.frames f hf
  main := by
    have hdata : (m.enter kind closes code).cfg.data = m.cfg.data := by
      cases closes <;> rfl
    rw [hdata]
    exact h.main

omit [DecidableEq L] in
theorem signal (hr : Reads sys v early) (h : m.Standing v early Q) (sig : Signal) :
    (sys.signal m sig).Standing v early Q := by
  cases sig with
  | next => exact h
  | sleep => exact ⟨h.frames, h.main⟩
  | trap => exact h.enter hr.trap _ _

theorem tick (hr : Reads sys v early) (h : m.Standing v early Q)
    (hcut : ∀ p, m.frames = [] → m.halted = false → m.code = .ret p → early m.pc → ¬early p →
      Q (v m.cfg.data)) (hn : sys.tick m = some m') : m'.Standing v early Q := by
  cases hf : m.frames with
  | nil =>
      have hnone : ∀ f ∈ ([] : List (Frame L S E)), f.code.Fixes v := by simp
      unfold System.tick at hn
      split at hn
      · cases hn
      next hh =>
        rw [hf] at hn
        dsimp only at hn
        split at hn
        next p hp =>
          obtain rfl := Option.some.inj hn
          refine ⟨hnone, ?_⟩
          by_cases hearly : early p
          · exact .inl hearly
          · refine .inr ⟨hr.block p hearly, ?_⟩
            rcases h.main with hm | hm
            · exact hcut p hf (by simpa using hh) (Prog.result?_eq_some hp) hm hearly
            · exact hm.2
        next hp =>
          obtain ⟨⟨k, c, sig⟩, hs, rfl⟩ := Option.map_eq_some_iff.mp hn
          have hstep : Cpu.Standing v early Q { m with code := k, cfg := c, frames := [] } := by
            refine ⟨hnone, h.main.imp id fun hm => ?_⟩
            obtain ⟨hk, hv⟩ := hm.1.step hs
            exact ⟨hk, hv ▸ hm.2⟩
          exact hstep.signal hr sig
  | cons f fs =>
      have hfs : ∀ g ∈ fs, g.code.Fixes v := fun g hg => h.frames g (by simp [hf, hg])
      rcases FatalProof.tick_frame hf hn with ⟨_, _, _, rfl⟩ | ⟨k, c, sig, hs, rfl⟩
      · exact ⟨hfs, h.main⟩
      · obtain ⟨hk, hv⟩ := (h.frames f (by simp [hf])).step hs
        have hstep : Cpu.Standing v early Q
            { m with frames := { f with code := k } :: fs, cfg := c } := by
          refine ⟨fun g hg => ?_, h.main.imp id fun hm => ⟨hm.1, hv ▸ hm.2⟩⟩
          rcases List.mem_cons.mp hg with rfl | hg
          · exact hk
          · exact hfs g hg
        exact hstep.signal hr sig

end Cpu.Standing

/-- What holds of `v` where the early blocks are left holds from there on. -/
theorem Run.standing {sys : System L S E I P} {v : S → V} {early : P → Prop} {Q : V → Prop}
    {G : Cpu L S E P → Label E I → Prop} {m₀ m : Cpu L S E P} {ls : List (Label E I)}
    (hr : Reads sys v early) (h₀ : m₀.frames = []) (hearly : early m₀.pc)
    (hcut : ∀ {ls m p}, Run sys.step G m₀ ls m → m.frames = [] → m.halted = false →
      m.code = .ret p → early m.pc → ¬early p → Q (v m.cfg.data))
    (hrun : Run sys.step G m₀ ls m) : m.Standing v early Q := by
  induction hrun with
  | nil => exact ⟨by simp [h₀], .inl hearly⟩
  | snoc hrun _ hn ih =>
      rcases System.step_cases hn with ⟨rfl, ht⟩ | ⟨i, rfl, _, _, rfl⟩ | ⟨e, rfl, _, rfl⟩
      · exact ih.tick hr (fun p => hcut hrun) ht
      · exact ih.enter (hr.irq i) _ _
      · exact ih.enter (hr.fatal e) _ _

end ProtoOs.Lib
