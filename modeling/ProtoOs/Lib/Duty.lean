import ProtoOs.Lib.Follow
import ProtoOs.Lib.Frame
import ProtoOs.Lib.Once

/-!
# What the handlers on the stack still have to do

A handler that can be interrupted by others, and left lying under a fatal
event for good, has at any time done part of what it is for. Its ghost is
the part that is left. `Discipline` says that every handler of a system
follows one protocol, from the ghost it is entered with to one that counts
as settled; then so does every frame on the stack in every run, whatever is
delivered and however deep (`Discipline.run`). `Discipline.step` is what a
step of such a system can be, seen from the ghosts.

The last section is about interrupts alone: where the handlers leave a
closed flag closed, no interrupt comes over another (`Run.alone`).
-/

namespace ProtoOs.Lib

variable {L S V E I P α γ : Type} [DecidableEq L]

/-- An instruction of code that leaves `v` alone leaves it alone. -/
theorem Prog.Fixes.step {v : S → V} {p k : Prog L S E α} {c c' : Cfg L S} {sig : Signal}
    (h : p.Fixes v) (hs : p.step c = some (k, c', sig)) :
    k.Fixes v ∧ v c'.data = v c.data := by
  cases p <;> simp only [Prog.step, reduceCtorEq, Option.some.injEq, Prod.mk.injEq] at hs
  case act f k' =>
    obtain ⟨rfl, rfl, _⟩ := hs
    exact ⟨h.2 _, h.1 _⟩
  case lock l k' =>
    split at hs
    · cases hs
    · simp only [Option.some.injEq, Prod.mk.injEq] at hs
      obtain ⟨rfl, rfl, _⟩ := hs
      exact ⟨h, rfl⟩
  case readIf k' =>
    obtain ⟨rfl, rfl, _⟩ := hs
    exact ⟨h _, rfl⟩
  all_goals
    obtain ⟨rfl, rfl, _⟩ := hs
    exact ⟨h, rfl⟩

omit [DecidableEq L] in
/-- Code over a part leaves alone what is read off the rest. -/
theorem Prog.Fixes.zoom_of {W : Type} (ln : Lens S W) {v : S → V}
    (hv : ∀ w s, v (ln.set w s) = v s) (p : Prog L W E α) : (p.zoom ln).Fixes v := by
  induction p with
  | ret a => trivial
  | act f k ih => exact ⟨fun s => hv _ s, fun s => ih _⟩
  | lock l k ih => exact ih
  | unlock l k ih => exact ih
  | readIf k ih => exact fun b => ih b
  | cli k ih => exact ih
  | sti k ih => exact ih
  | hlt k ih => exact ih
  | int3 k ih => exact ih
  | fault e => trivial
  | haltLoop => trivial

omit [DecidableEq L] in
/-- Code over a part leaves alone what it leaves alone of the part. -/
theorem Prog.Fixes.zoom {W : Type} (ln : Lens S W) {v : W → V} {p : Prog L W E α}
    (h : p.Fixes v) : (p.zoom ln).Fixes fun s => v (ln.get s) := by
  induction p with
  | ret a => trivial
  | act f k ih =>
      refine ⟨fun s => ?_, fun s => ih _ (h.2 _)⟩
      dsimp only
      rw [ln.get_set]
      exact h.1 _
  | lock l k ih => exact ih h
  | unlock l k ih => exact ih h
  | readIf k ih => exact fun b => ih b (h b)
  | cli k ih => exact ih h
  | sti k ih => exact ih h
  | hlt k ih => exact ih h
  | int3 k ih => exact ih h
  | fault e => trivial
  | haltLoop => trivial

/-- A run that ends with no fatal frame on the stack has met no fatal event. -/
theorem Run.calm {sys : System L S E I P} {G G' : Cpu L S E P → Label E I → Prop}
    (hG' : ∀ m l, (∀ e, l ≠ .fatal e) → G' m l) {m₀ m : Cpu L S E P} {ls : List (Label E I)}
    (hrun : Run sys.step G m₀ ls m) (hm : ∀ f ∈ m.frames, f.kind ≠ .fatal) :
    Run sys.step G' m₀ ls m := by
  induction hrun with
  | nil => exact .nil
  | @snoc _ m m' l _ _ hn ih =>
      refine (ih fun f hf hk => ?_).snoc (hG' m l ?_) hn
      · -- A fatal frame would still be there.
        obtain ⟨above, fs, hfs⟩ := List.append_of_mem hf
        obtain ⟨_, _, above', f', hframes, hk'⟩ := Lib.fatal_stays hfs hk hn
        exact hm f' (by simp [hframes]) hk'
      · rintro e rfl
        rcases System.step_cases hn with ⟨hl, _⟩ | ⟨_, hl, _⟩ | ⟨e', _, _, rfl⟩
        · cases hl
        · cases hl
        · exact hm _ List.mem_cons_self rfl

/-- The main flow leaves `v` alone, and every handler follows the protocol,
from what is due when it is entered to something settled. -/
structure Discipline (sys : System L S E I P) (v : S → V) (R : γ → S → S → γ → Prop) (A : L → Prop)
    (due : FrameKind → γ) (settled : γ → Prop) : Prop where
  block : ∀ p, (sys.block p).Fixes v
  irq : ∀ i, (sys.irq i).Follows R A (fun _ => settled) (due .irq)
  trap : sys.trap.Follows R A (fun _ => settled) (due .trap)
  fatal : ∀ e, (sys.fatal e).Follows R A (fun _ => settled) (due .fatal)

/-- The handlers on the stack, innermost first. -/
def Cpu.kinds (m : Cpu L S E P) : List FrameKind := m.frames.map Frame.kind

/-- What a step does to the data and to the ghosts of the frames, innermost
first. -/
inductive Moves (v : S → V) (R : γ → S → S → γ → Prop) (due : FrameKind → γ)
    (settled : γ → Prop) (m m' : Cpu L S E P) : Label E I → List γ → List γ → Prop
  /-- An instruction of the main flow, or a jump. -/
  | main (hf : m.frames = []) (hf' : m'.frames = []) (hv : v m'.cfg.data = v m.cfg.data) :
      Moves v R due settled m m' .tick [] []
  /-- A handler is entered. -/
  | enters {l : Label E I} {kind : FrameKind} {xs : List γ}
      (hkind : kind = .irq ↔ ∃ i, l = .irq i) (hdata : m'.cfg.data = m.cfg.data)
      (hkinds : m'.kinds = kind :: m.kinds) : Moves v R due settled m m' l xs (due kind :: xs)
  | acts {x x' : γ} {xs : List γ} (hR : R x m.cfg.data m'.cfg.data x' ∨
        x' = x ∧ m'.cfg.data = m.cfg.data)
      (hkinds : m'.kinds = m.kinds) : Moves v R due settled m m' .tick (x :: xs) (x' :: xs)
  | returns {kind : FrameKind} {x : γ} {xs : List γ} (hx : settled x)
      (hdata : m'.cfg.data = m.cfg.data) (hkinds : m.kinds = kind :: m'.kinds) :
      Moves v R due settled m m' .tick (x :: xs) xs

namespace Discipline

variable {sys : System L S E I P} {v : S → V} {R : γ → S → S → γ → Prop} {A : L → Prop}
  {due : FrameKind → γ} {settled : γ → Prop} {m m' : Cpu L S E P} {l : Label E I}

/-- The main flow leaves `v` alone, and `xs` are the ghosts of the frames. -/
def Has (v : S → V) (R : γ → S → S → γ → Prop) (A : L → Prop) (settled : γ → Prop)
    (m : Cpu L S E P) (xs : List γ) : Prop :=
  m.code.Fixes v ∧
    List.Forall₂ (fun f x => f.code.Follows R A (fun _ => settled) x) m.frames xs

/-- A breakpoint touches no data. -/
theorem data_of_trap {p k : Prog L S E α} {c c' : Cfg L S}
    (hs : p.step c = some (k, c', .trap)) : c'.data = c.data := by
  cases p <;> simp only [Prog.step, reduceCtorEq, Option.some.injEq, Prod.mk.injEq,
    and_false] at hs
  case lock l k' =>
    split at hs
    · cases hs
    · simp at hs
  case int3 k' =>
    obtain ⟨_, rfl, _⟩ := hs
    rfl

theorem tick_main (d : Discipline sys v R A due settled) (hf : m.frames = [])
    (hcode : m.code.Fixes v) (ht : sys.tick m = some m') :
    ∃ xs', Has v R A settled m' xs' ∧ Moves v R due settled m m' (.tick : Label E I) [] xs' := by
  unfold System.tick at ht
  split at ht
  · cases ht
  · rw [hf] at ht
    dsimp only at ht
    split at ht
    next p hr =>
      obtain rfl := Option.some.inj ht
      exact ⟨[], ⟨d.block p, .nil⟩, .main hf rfl rfl⟩
    next hr =>
      obtain ⟨⟨k, c, sig⟩, hs, rfl⟩ := Option.map_eq_some_iff.mp ht
      obtain ⟨hk, hv⟩ := hcode.step hs
      cases sig with
      | next => exact ⟨[], ⟨hk, .nil⟩, .main hf rfl hv⟩
      | sleep => exact ⟨[], ⟨hk, .nil⟩, .main hf rfl hv⟩
      | trap =>
          have hdata : c.data = m.cfg.data := data_of_trap hs
          refine ⟨[due .trap], ⟨hk, .cons d.trap .nil⟩, .enters (by simp) hdata ?_⟩
          simp only [Cpu.kinds, hf]
          rfl

theorem tick_frame {f : Frame L S E} {fs : List (Frame L S E)} {x : γ} {xs : List γ}
    (hf : m.frames = f :: fs) (hcode : m.code.Fixes v)
    (hx : f.code.Follows R A (fun _ => settled) x)
    (hxs : List.Forall₂ (fun f x => f.code.Follows R A (fun _ => settled) x) fs xs)
    (ht : sys.tick m = some m') :
    ∃ xs', Has v R A settled m' xs' ∧
      Moves v R due settled m m' (.tick : Label E I) (x :: xs) xs' := by
  rcases FatalProof.tick_frame hf ht with ⟨a, hr, _, rfl⟩ | ⟨k, c, sig, hs, rfl⟩
  · rw [Prog.result?_eq_some hr] at hx
    exact ⟨xs, ⟨hcode, hxs⟩, .returns hx rfl (congrArg _ hf)⟩
  · obtain ⟨rfl, x', hR, hk⟩ := hx.step hs
    exact ⟨x' :: xs, ⟨hcode, .cons hk hxs⟩, .acts hR (congrArg (List.map Frame.kind) hf).symm⟩

/-- What a step can be, seen from the ghosts. -/
theorem step (d : Discipline sys v R A due settled) {xs : List γ}
    (h : Has v R A settled m xs) (hn : sys.step m l = some m') :
    ∃ xs', Has v R A settled m' xs' ∧ Moves v R due settled m m' l xs xs' := by
  have hdata : ∀ kind closes code, (m.enter kind closes code).cfg.data = m.cfg.data := by
    intro kind closes code
    cases closes <;> rfl
  obtain ⟨hcode, hxs⟩ := h
  rcases System.step_cases hn with ⟨rfl, ht⟩ | ⟨i, rfl, _, _, rfl⟩ | ⟨e, rfl, _, rfl⟩
  · cases hf : m.frames with
    | nil =>
        rw [hf] at hxs
        cases hxs
        exact d.tick_main hf hcode ht
    | cons f fs =>
        rw [hf] at hxs
        cases hxs with
        | cons hx hxs => exact tick_frame hf hcode hx hxs ht
  · exact ⟨due .irq :: xs, ⟨hcode, .cons (d.irq i) hxs⟩, .enters (by simp) (hdata _ _ _) rfl⟩
  · exact ⟨due .fatal :: xs, ⟨hcode, .cons (d.fatal e) hxs⟩, .enters (by simp) (hdata _ _ _) rfl⟩

/-- In every run, whatever is delivered and however deep: what the moves
keep holds at its end. -/
theorem run (d : Discipline sys v R A due settled) {m₀ : Cpu L S E P} (h₀ : m₀.frames = [])
    (hcode : m₀.code.Fixes v) {J : List (Label E I) → Cpu L S E P → List γ → Prop}
    (hJ₀ : J [] m₀ [])
    (hJ : ∀ {ls m l m' xs xs'}, J ls m xs → Moves v R due settled m m' l xs xs' →
      J (ls ++ [l]) m' xs')
    {G : Cpu L S E P → Label E I → Prop} {ls : List (Label E I)} (hrun : Run sys.step G m₀ ls m) :
    ∃ xs, Has v R A settled m xs ∧ J ls m xs := by
  induction hrun with
  | nil => exact ⟨[], ⟨hcode, h₀ ▸ .nil⟩, hJ₀⟩
  | snoc _ _ hn ih =>
      obtain ⟨xs, hxs, hj⟩ := ih
      obtain ⟨xs', hxs', hmoves⟩ := d.step hxs hn
      exact ⟨xs', hxs', hJ hj hmoves⟩

omit [DecidableEq L] in
/-- A handler wants only the locks the protocol allows. -/
theorem wants {xs : List γ} (h : Has v R A settled m xs) (hne : m.frames ≠ []) {l : L}
    (hw : m.wants = some l) : A l := by
  cases hf : m.frames with
  | nil => exact absurd hf hne
  | cons f fs =>
      have hxs := h.2
      rw [hf] at hxs
      simp only [Cpu.wants, hf] at hw
      cases hxs with
      | cons hx _ => exact hx.wants hw

end Discipline

/-! ## One interrupt at a time -/

namespace Prog

/-- Entered with the flag closed, the code never opens it, sleeps or
traps. -/
inductive Shut : Prog L S E α → Prop
  | ret (a : α) : Shut (ret a)
  | act {f : S → S} {k : S → Prog L S E α} (h : ∀ s, Shut (k s)) : Shut (act f k)
  | lock {l : L} {k : Prog L S E α} (h : Shut k) : Shut (lock l k)
  | unlock {l : L} {k : Prog L S E α} (h : Shut k) : Shut (unlock l k)
  | readIf {k : Bool → Prog L S E α} (h : Shut (k false)) : Shut (readIf k)
  | cli {k : Prog L S E α} (h : Shut k) : Shut (cli k)
  | fault (e : E) : Shut (fault e)
  | haltLoop : Shut haltLoop

namespace Shut

variable {β W : Type}

omit [DecidableEq L] in
theorem bind {p : Prog L S E α} {g : α → Prog L S E β} (hp : p.Shut)
    (hg : ∀ a, (g a).Shut) : (p.bind g).Shut := by
  induction hp with
  | ret a => exact hg a
  | act _ ih => exact .act ih
  | lock _ ih => exact .lock ih
  | unlock _ ih => exact .unlock ih
  | readIf _ ih => exact .readIf ih
  | cli _ ih => exact .cli ih
  | fault e => exact .fault e
  | haltLoop => exact .haltLoop

omit [DecidableEq L] in
theorem modify (f : S → S) : (modify f : Prog L S E Unit).Shut :=
  .act fun _ => .ret ()

omit [DecidableEq L] in
theorem attempt (f : S → Option (α × S)) (e : E) : (attempt f e : Prog L S E α).Shut := by
  refine .act fun s => ?_
  cases f s with
  | none => exact .fault e
  | some r => exact .ret r.1

omit [DecidableEq L] in
theorem withLock {l : L} {p : Prog L S E α} (hp : p.Shut) : (withLock l p).Shut :=
  .lock (hp.bind fun a => .unlock (.ret a))

omit [DecidableEq L] in
theorem callOnce (l : L) (ready : S → Bool) (f : S → S) :
    (callOnce l ready f : Prog L S E Unit).Shut := by
  refine .act fun s => ?_
  split
  · exact .ret ()
  · exact withLock (modify _)

omit [DecidableEq L] in
/-- The flag is found closed, and nothing is done about it. -/
theorem withoutInterrupts {p : Prog L S E α} (hp : p.Shut) : (withoutInterrupts p).Shut :=
  .readIf hp

omit [DecidableEq L] in
theorem zoom (ln : Lens S W) {p : Prog L W E α} (hp : p.Shut) :
    (p.zoom ln : Prog L S E α).Shut := by
  induction hp with
  | ret a => exact .ret a
  | act _ ih => exact .act fun s => ih _
  | lock _ ih => exact .lock ih
  | unlock _ ih => exact .unlock ih
  | readIf _ ih => exact .readIf ih
  | cli _ ih => exact .cli ih
  | fault e => exact .fault e
  | haltLoop => exact .haltLoop

theorem step {p k : Prog L S E α} {c c' : Cfg L S} {sig : Signal} (h : p.Shut)
    (hc : c.ifl = false) (hs : p.step c = some (k, c', sig)) :
    sig = .next ∧ k.Shut ∧ c'.ifl = false := by
  cases h with
  | ret a => cases hs
  | act h => cases hs; exact ⟨rfl, h _, hc⟩
  | lock h =>
      simp only [Prog.step] at hs
      split at hs
      · cases hs
      · cases hs; exact ⟨rfl, h, hc⟩
  | unlock h => cases hs; exact ⟨rfl, h, hc⟩
  | readIf h =>
      cases hs
      rw [hc]
      exact ⟨rfl, h, hc⟩
  | cli h => cases hs; exact ⟨rfl, h, rfl⟩
  | fault e => cases hs
  | haltLoop => cases hs

end Shut

end Prog

/-- No interrupt handler is on the stack; or one is, the flag is closed, and
what has come over it is fatal and leaves the flag alone. -/
def Cpu.Alone (m : Cpu L S E P) : Prop :=
  (∀ f ∈ m.frames, f.kind ≠ .irq) ∨
    ∃ above f below, m.frames = above ++ f :: below ∧ f.kind = .irq ∧
      (∀ g ∈ above, g.kind = .fatal ∧ g.code.Shut) ∧ f.code.Shut ∧
      (∀ g ∈ below, g.kind ≠ .irq) ∧ m.cfg.ifl = false

namespace Cpu.Alone

variable {sys : System L S E I P} {m m' : Cpu L S E P} {l : Label E I}

omit [DecidableEq L] in
theorem count_le (h : m.Alone) : m.kinds.count .irq ≤ 1 := by
  have hnone : ∀ fs : List (Frame L S E), (∀ f ∈ fs, f.kind ≠ .irq) →
      (fs.map Frame.kind).count .irq = 0 := by
    intro fs hfs
    rw [List.count_eq_zero]
    intro hmem
    obtain ⟨f, hf, hk⟩ := List.mem_map.mp hmem
    exact hfs f hf hk
  rcases h with h | ⟨above, f, below, hf, hk, habove, _, hbelow, _⟩
  · exact Nat.le_trans (Nat.le_of_eq (hnone _ h)) (Nat.zero_le 1)
  · have habove' : ∀ g ∈ above, g.kind ≠ .irq := by
      intro g hg hirq
      rw [(habove g hg).1] at hirq
      cases hirq
    simp only [Cpu.kinds, hf, List.map_append, List.map_cons, List.count_append, hk,
      List.count_cons_self, hnone _ habove', hnone _ hbelow]
    exact Nat.le_refl 1

/-- Nothing but an interrupt puts an interrupt handler on the stack. -/
theorem tick_none (h : ∀ f ∈ m.frames, f.kind ≠ .irq) (ht : sys.tick m = some m') :
    ∀ f ∈ m'.frames, f.kind ≠ .irq := by
  have hsignal : ∀ (m₁ : Cpu L S E P) (sig : Signal), (∀ f ∈ m₁.frames, f.kind ≠ .irq) →
      ∀ f ∈ (sys.signal m₁ sig).frames, f.kind ≠ .irq := by
    intro m₁ sig h₁ f hf
    cases sig with
    | next => exact h₁ f hf
    | sleep => exact h₁ f hf
    | trap =>
        rcases List.mem_cons.mp hf with rfl | hf
        · simp
        · exact h₁ f hf
  cases hf : m.frames with
  | nil =>
      unfold System.tick at ht
      rw [hf] at ht
      split at ht
      · cases ht
      · dsimp only at ht
        split at ht
        · obtain rfl := Option.some.inj ht
          exact fun f hmem => h f (hf ▸ hmem)
        · obtain ⟨r, _, rfl⟩ := Option.map_eq_some_iff.mp ht
          exact hsignal _ _ fun f hmem => nomatch hmem
  | cons f fs =>
      rw [hf] at h
      rcases FatalProof.tick_frame hf ht with ⟨_, _, _, rfl⟩ | ⟨k, c, sig, _, rfl⟩
      · exact fun g hg => h g (List.mem_cons_of_mem _ hg)
      · refine hsignal _ _ fun g hg => ?_
        rcases List.mem_cons.mp hg with rfl | hg
        · exact h f List.mem_cons_self
        · exact h g (List.mem_cons_of_mem _ hg)

theorem step (hirq : ∀ i, (sys.irq i).Shut) (hfatal : ∀ e, (sys.fatal e).Shut) (h : m.Alone)
    (hn : sys.step m l = some m') : m'.Alone := by
  rcases h with h | ⟨above, f, below, hf, hk, habove, hcode, hbelow, hifl⟩
  · rcases System.step_cases hn with ⟨rfl, ht⟩ | ⟨i, rfl, _, _, rfl⟩ | ⟨e, rfl, _, rfl⟩
    · exact .inl (tick_none h ht)
    · exact .inr ⟨[], _, m.frames, rfl, rfl, by simp, hirq i, h, rfl⟩
    · refine .inl fun g hg => ?_
      rcases List.mem_cons.mp hg with rfl | hg
      · simp
      · exact h g hg
  · rcases System.step_cases hn with ⟨rfl, ht⟩ | ⟨i, rfl, hopen, _⟩ | ⟨e, rfl, _, rfl⟩
    · cases above with
      | nil =>
          rcases FatalProof.tick_frame hf ht with ⟨_, _, _, rfl⟩ | ⟨k, c, sig, hs, rfl⟩
          · exact .inl hbelow
          · obtain ⟨rfl, hk', hc⟩ := hcode.step hifl hs
            exact .inr ⟨[], { f with code := k }, below, rfl, hk, habove, hk', hbelow, hc⟩
      | cons g above =>
          obtain ⟨hg, hrest⟩ := List.forall_mem_cons.mp habove
          rw [List.cons_append] at hf
          rcases FatalProof.tick_frame hf ht with ⟨_, _, hng, _⟩ | ⟨k, c, sig, hs, rfl⟩
          · exact absurd hg.1 hng
          · obtain ⟨rfl, hk', hc⟩ := hg.2.step hifl hs
            exact .inr ⟨{ g with code := k } :: above, f, below, rfl, hk,
              List.forall_mem_cons.mpr ⟨⟨hg.1, hk'⟩, hrest⟩, hcode, hbelow, hc⟩
    · rw [hifl] at hopen
      cases hopen
    · refine .inr ⟨_ :: above, f, below, congrArg (List.cons _) hf, hk,
        List.forall_mem_cons.mpr ⟨⟨rfl, hfatal e⟩, habove⟩, hcode, hbelow, ?_⟩
      unfold Cpu.enter
      dsimp only
      split
      · rfl
      · exact hifl

end Cpu.Alone

/-- Where neither the interrupt handlers nor the fatal ones open the flag, at
most one interrupt is being handled at any time. -/
theorem Run.alone {sys : System L S E I P} (hirq : ∀ i, (sys.irq i).Shut)
    (hfatal : ∀ e, (sys.fatal e).Shut) {m₀ m : Cpu L S E P} (h₀ : m₀.frames = [])
    {G : Cpu L S E P → Label E I → Prop} {ls : List (Label E I)}
    (hrun : Run sys.step G m₀ ls m) : m.Alone := by
  refine hrun.invariant (.inl ?_) fun h _ hn => Cpu.Alone.step hirq hfatal h hn
  rw [h₀]
  exact fun f hf => nomatch hf

end ProtoOs.Lib
