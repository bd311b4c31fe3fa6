import ProtoOs.Lib.Fatal
import ProtoOs.Lib.Frame
import ProtoOs.Lib.Mirror

/-!
# Interference that leaves a part alone

Code over a part of the data is read twice: once in a logic that knows the
locks and the flag, under any interference that logic allows, and once left
alone, on the part. If what comes between its instructions leaves the part,
the locks and the flag as they are, both readings hold at once
(`Prog.wp_undisturbed`): what the code does when left alone it does under
that interference too.
-/

namespace ProtoOs.Lib

variable {L S W E α : Type}

/-- The two differ at most in the shadow of an `sti`. -/
def Cfg.Alike (c c' : Cfg L S) : Prop :=
  c'.data = c.data ∧ c'.held = c.held ∧ c'.ifl = c.ifl

namespace Prog

variable [DecidableEq L]

/-- How code ends does not depend on the shadow it starts in. -/
theorem meets_alike {trap : Cfg L S → Outcome L S E Unit} {p : Prog L S E α} {c c' : Cfg L S}
    {Q : α → S → Prop} {R : S → Prop} (hc : c.Alike c') (h : (p.run trap c).Meets Q R) :
    (p.run trap c').Meets Q R := by
  obtain ⟨data, held, ifl, shadow⟩ := c
  obtain ⟨data', held', ifl', shadow'⟩ := c'
  obtain ⟨rfl, rfl, rfl⟩ := hc
  cases p with
  | lock l k =>
      simp only [run] at h ⊢
      split at h
      next hheld => rw [if_pos hheld]; exact h
      next hheld => rw [if_neg hheld]; exact h
  | _ => exact h

end Prog

/-- Code that yields, and then code that ends as it should. -/
theorem Prog.Yields.meets [DecidableEq L] {β : Type} {trap : Cfg L S → Outcome L S E Unit}
    {p : Prog L S E α} {g : α → Prog L S E β} {s s' : S} {h : L → Bool} {b : Bool} {a : α}
    {Q : β → S → Prop} {R : S → Prop} (hp : p.Yields trap s h b a s')
    (hg : ∀ d : Cfg L S, d.data = s' → d.held = h → d.ifl = b → ((g a).run trap d).Meets Q R)
    {c : Cfg L S} (hs : c.data = s) (hh : c.held = h) (hb : c.ifl = b) :
    ((p.bind g).run trap c).Meets Q R := by
  obtain ⟨d, hrun, hdata, hheld, hifl⟩ := hp.run_eq hs hh hb
  rw [Prog.run_bind, hrun]
  exact hg d hdata hheld hifl

/-- `Γ'` allows less interference than `Γ`, none of it on the part, the locks
or the flag, and where the code stops it asks `R` of the part besides. -/
structure Logic.Undisturbed (ln : Lens S W) (Γ Γ' : Logic L S E) (R : W → Prop) : Prop where
  rely : ∀ {c c'}, Γ'.rely c c' → Γ.rely c c' ∧ c'.held = c.held ∧ c'.ifl = c.ifl ∧
    ln.get c'.data = ln.get c.data
  point : ∀ {c}, Γ.point c → Γ'.point c
  stop : ∀ {c}, Γ.stop c → R (ln.get c.data) → Γ'.stop c

namespace Prog

variable [DecidableEq L] {ln : Lens S W} {Γ Γ' : Logic L S E} {Q : α → Cfg L S → Prop}
  {Q' : α → W → Prop} {R : W → Prop}

theorem wp_undisturbed (h : Γ.Undisturbed ln Γ' R) (hΓ : Γ.Total) (p : Prog L W E α) :
    ∀ {c : Cfg L S}, (p.zoom ln).wp Γ Q c → (p.run Outcome.halt (c.view ln)).Meets Q' R →
      (p.zoom ln).wp Γ' (fun a c' => Q a c' ∧ Q' a (ln.get c'.data)) c := by
  -- Wherever interference leads, the code left alone still ends as it would have.
  have lift : ∀ {P P' : Cfg L S → Prop} {c : Cfg L S} {p : Prog L W E α}, Γ.At P c →
      (p.run Outcome.halt (c.view ln)).Meets Q' R →
      (∀ c', P c' → (p.run Outcome.halt (c'.view ln)).Meets Q' R → P' c') → Γ'.At P' c := by
    intro P P' c p hat hrun hP c' hstar
    have hreach : Relation.ReflTransGen Γ.rely c c' ∧ (c.view ln).Alike (c'.view ln) := by
      induction hstar with
      | refl => exact ⟨.refl, rfl, rfl, rfl⟩
      | tail _ hr ih =>
          obtain ⟨hrely, hheld, hifl, hpart⟩ := h.rely hr
          exact ⟨ih.1.tail hrely, hpart.trans ih.2.1, hheld.trans ih.2.2.1,
            hifl.trans ih.2.2.2⟩
    obtain ⟨hpoint, hhere⟩ := hat c' hreach.1
    exact ⟨h.point hpoint, hP c' hhere (meets_alike hreach.2 hrun)⟩
  induction p with
  | ret a => exact fun hwp hrun => ⟨h.point hwp.1, hwp.2, hrun⟩
  | act f k ih =>
      intro c hwp hrun
      refine lift hwp hrun fun c' hhere hrun' => ih (ln.get c'.data) hhere ?_
      have hview : (c'.update fun s => ln.set (f (ln.get s)) s).view ln =
          (c'.view ln).update f := by
        simp only [Cfg.view, Cfg.update, ln.get_set]
      rw [hview]
      exact hrun'
  | lock l k ih =>
      intro c hwp hrun
      refine lift hwp hrun fun c' hhere hrun' => ?_
      split at hhere
      next hheld => exact absurd hhere hΓ.busy
      next hheld =>
        have hrun'' : ((lock l k).run Outcome.halt (c'.view ln)) =
            k.run Outcome.halt ((c'.acquire l).view ln) := if_neg hheld
        rw [hrun''] at hrun'
        rw [if_neg hheld]
        exact ih hhere hrun'
  | unlock l k ih => exact fun hwp hrun => lift hwp hrun fun c' hhere hrun' => ih hhere hrun'
  | readIf k ih => exact fun hwp hrun => lift hwp hrun fun c' hhere hrun' => ih _ hhere hrun'
  | cli k ih => exact fun hwp hrun => lift hwp hrun fun c' hhere hrun' => ih hhere hrun'
  | sti k ih => exact fun hwp hrun => lift hwp hrun fun c' hhere hrun' => ih hhere hrun'
  | hlt k _ => exact fun hwp _ => absurd hwp.here.1 hΓ.rest
  | int3 k _ => exact fun hwp _ => absurd hwp.here hΓ.trap
  | fault e => exact fun hwp _ => absurd hwp.here hΓ.fault
  | haltLoop => exact fun hwp hrun => lift hwp hrun fun c' hhere hrun' => h.stop hhere hrun'

end Prog

namespace FatalProof

variable {I P : Type} [DecidableEq L] {sys : System L S E I P}
  {G₀ G : Cpu L S E P → Label E I → Prop} {pf : FatalProof sys G₀ G}

/-- From an event on that nothing fatal follows, in a logic with less
interference. -/
def undisturbed (pf : FatalProof sys G₀ G) {ln : Lens S W} {Γ : Logic L S E} {R : W → Prop}
    (h : pf.fatal.Undisturbed ln Γ R) (htotal : Γ.Total) (hlast : ∀ m e, ¬G₀ m (.fatal e))
    (hirq : ∀ {c i}, c.ifl = true → Γ.point c →
      (sys.irq i).wp pf.irq (fun _ c' => Γ.rely c (c'.iret true)) c.closeIf) :
    FatalProof sys G₀ G₀ where
  calm := pf.calm
  fatal := Γ
  irq := pf.irq
  calm_guard hG _ := hG
  calm_point hm := h.point (pf.calm_point hm)
  total := htotal
  irq_point hc := ⟨(pf.irq_point hc).1, h.point (pf.irq_point hc).2⟩
  irq_busy := pf.irq_busy
  irq_trap := pf.irq_trap
  irq_rest := pf.irq_rest
  fatal_ok hG := absurd hG (hlast _ _)
  irq_ok := hirq

/-- A fatal handler on top, left alone, ends in the halting loop where the
logic lets it stop. -/
theorem Inv.stops (htick : ∀ m, G m .tick) {m : Cpu L S E P} {f : Frame L S E}
    {fs : List (Frame L S E)} (h : pf.Inv m) (hf : m.frames = f :: fs) (hk : f.kind = .fatal) :
    ∃ ls m' f', Run sys.step Ticks m ls m' ∧ m'.frames = f' :: fs ∧ f'.code = .haltLoop ∧
      pf.fatal.stop m'.cfg := by
  obtain ⟨ls, m', f', hrun, hf', hk', hcode⟩ := h.halts hf hk
  have h' : pf.Inv m' := hrun.invariant h fun h hl hn => h.step (hl ▸ htick _) hn
  refine ⟨ls, m', f', hrun, hf', hcode, ?_⟩
  cases h' with
  | calm hcalm _ => exact absurd hk' (hcalm f' (by simp [hf']))
  | top hf₂ _ _ hwp =>
      obtain ⟨rfl, _⟩ := List.cons.inj (hf'.symm.trans hf₂)
      rw [hcode] at hwp
      exact hwp.here
  | above hf₂ hkf _ _ _ =>
      obtain ⟨rfl, _⟩ := List.cons.inj (hf'.symm.trans hf₂)
      exact absurd hk' hkf

end FatalProof

end ProtoOs.Lib
