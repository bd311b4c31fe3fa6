import Mathlib.Logic.Relation
import ProtoOs.Lib.Prog

/-!
# Weakest preconditions under interrupts

`Prog.wp` says what a configuration must satisfy for a stretch of code to
run as intended whatever is delivered to it on the way. A `Logic` fixes
what that means: the interference one delivered interrupt may cause between
two instructions, the assertion every instruction boundary must meet, the
one the CPU must meet when it goes to sleep, and what is asked where the
code traps, faults, stops for good or finds a lock held.

Every instruction is read at all the configurations interference may lead
to before it runs (`Logic.At`), so the precondition of code that is at one
is stable by construction. The end of the code is not an instruction, and
what interference does there is for whatever follows to say. Where
interrupts are off there is no interference and the rules are the ordinary
ones.

`Prog.Safe` is the part of this that locks and the flag alone decide,
whatever the data: no acquisition of a held lock, no lock but those it was
told, and no opening of the flag where it must stay closed. `Neutral` is
the discipline most code obeys in those terms: it takes only locks it was
told it may take, releases them all, and leaves the flag as it found it;
`Ends` is that of code that stops for good. Either lifts to every logic
that asks for nothing else (`Safe.wp`).
-/

namespace ProtoOs.Lib

open Relation

variable {L S W E α β : Type}

structure Logic (L S E : Type) where
  /-- What one interrupt delivered between two instructions may do. -/
  rely : Cfg L S → Cfg L S → Prop
  /-- What the interrupt that wakes a sleeping CPU may do. -/
  wake : Cfg L S → Cfg L S → Prop
  /-- Asked at every instruction boundary. -/
  point : Cfg L S → Prop
  /-- Asked when the CPU goes to sleep. -/
  rest : Cfg L S → Prop
  /-- Asked where an acquisition finds its lock held. -/
  busy : L → Cfg L S → Prop
  /-- What `int3` asks, for a condition asked of its return. -/
  trap : (Cfg L S → Prop) → Cfg L S → Prop
  fault : E → Cfg L S → Prop
  /-- Asked where the code stops for good. -/
  stop : Cfg L S → Prop
  trap_mono : ∀ {P P' : Cfg L S → Prop} {c : Cfg L S},
    (∀ c, P c → P' c) → trap P c → trap P' c

/-- The assertion at every configuration interference may lead to. -/
def Logic.At (Γ : Logic L S E) (P : Cfg L S → Prop) (c : Cfg L S) : Prop :=
  ∀ c', ReflTransGen Γ.rely c c' → Γ.point c' ∧ P c'

namespace Logic

variable {Γ : Logic L S E} {P P' : Cfg L S → Prop} {c c' : Cfg L S}

theorem At.here (h : Γ.At P c) : P c := (h c .refl).2

theorem At.point (h : Γ.At P c) : Γ.point c := (h c .refl).1

theorem At.step (h : Γ.At P c) (hr : Γ.rely c c') : Γ.At P c' :=
  fun _ hc => h _ (hc.head hr)

theorem At.mono (h : Γ.At P c) (hP : ∀ c, P c → P' c) : Γ.At P' c :=
  fun c' hc => ⟨(h c' hc).1, hP _ (h c' hc).2⟩

/-- Where no interrupt can be delivered there is nothing else to check. -/
theorem At.of_quiet (hq : ∀ c', ¬Γ.rely c c') (hp : Γ.point c) (h : P c) :
    Γ.At P c := by
  intro c' hc
  rcases hc.cases_head with rfl | ⟨d, hd, _⟩
  · exact ⟨hp, h⟩
  · exact absurd hd (hq d)

/-- Interrupts come only while the flag is open. -/
def Gated (Γ : Logic L S E) : Prop := ∀ c c', Γ.rely c c' → c.ifl = true

theorem Gated.at_intro (hΓ : Γ.Gated) (hc : c.ifl = false) (hp : Γ.point c)
    (h : P c) : Γ.At P c := by
  refine At.of_quiet (fun c' hr => ?_) hp h
  rw [hΓ c c' hr] at hc
  cases hc

/-- Interference keeps locks and flag, and a boundary asks for nothing but
these: the flag closed, unless `opened` lets it be open, and `K` of the
locks. -/
structure Lax (Γ : Logic L S E) (opened : Bool) (K : (L → Bool) → Prop) : Prop where
  rely : ∀ {c c' : Cfg L S}, Γ.rely c c' → c'.held = c.held ∧ c'.ifl = c.ifl
  point : ∀ {c : Cfg L S}, (c.ifl = true → opened = true) → K c.held → Γ.point c

variable {opened : Bool} {K : (L → Bool) → Prop}

theorem Lax.star (hΓ : Γ.Lax opened K)
    (h : ReflTransGen Γ.rely c c') : c'.held = c.held ∧ c'.ifl = c.ifl := by
  induction h with
  | refl => exact ⟨rfl, rfl⟩
  | tail _ hr ih =>
      obtain ⟨hheld, hifl⟩ := hΓ.rely hr
      exact ⟨hheld.trans ih.1, hifl.trans ih.2⟩

/-- An assertion about locks and flag alone survives interference. -/
theorem Lax.at_intro (hΓ : Γ.Lax opened K)
    (ho : c.ifl = true → opened = true) (hK : K c.held)
    (h : ∀ c', c'.held = c.held → c'.ifl = c.ifl → P c') : Γ.At P c := by
  intro c' hc
  obtain ⟨hheld, hifl⟩ := hΓ.star hc
  exact ⟨hΓ.point (by rw [hifl]; exact ho) (by rw [hheld]; exact hK), h c' hheld hifl⟩

end Logic

namespace Prog

variable [DecidableEq L]

def wp (Γ : Logic L S E) : Prog L S E α → (α → Cfg L S → Prop) →
    Cfg L S → Prop
  | ret a, Q => fun c => Γ.point c ∧ Q a c
  | act f k, Q => Γ.At fun c => (k c.data).wp Γ Q (c.update f)
  | lock l k, Q => Γ.At fun c =>
      if c.held l then Γ.busy l c else k.wp Γ Q (c.acquire l)
  | unlock l k, Q => Γ.At fun c => k.wp Γ Q (c.release l)
  | readIf k, Q => Γ.At fun c => (k c.ifl).wp Γ Q c.next
  | cli k, Q => Γ.At fun c => k.wp Γ Q c.closeIf
  | sti k, Q => Γ.At fun c => k.wp Γ Q c.openIf
  | hlt k, Q => Γ.At fun c =>
      Γ.rest c.next ∧ ∀ c', Γ.wake c.next c' → k.wp Γ Q c'
  | int3 k, Q => Γ.At fun c => Γ.trap (k.wp Γ Q) c.next
  | fault e, _ => Γ.At fun c => Γ.fault e c
  | haltLoop, _ => Γ.At fun c => Γ.stop c

variable {Γ : Logic L S E} {Q Q' : α → Cfg L S → Prop} {c c' : Cfg L S}

theorem wp_point {p : Prog L S E α} (h : p.wp Γ Q c) : Γ.point c := by
  cases p with
  | ret a => exact h.1
  | _ => exact Logic.At.point h

/-- The value of code that has come to its end. -/
def result? : Prog L S E α → Option α
  | ret a => some a
  | _ => none

/-- In front of an instruction a precondition survives interference. -/
theorem wp_stable {p : Prog L S E α} (hp : p.result? = none) (h : p.wp Γ Q c)
    (hr : Γ.rely c c') : p.wp Γ Q c' := by
  cases p with
  | ret a => cases hp
  | _ => exact Logic.At.step h hr

theorem wp_mono {p : Prog L S E α} (hQ : ∀ a c, Q a c → Q' a c) :
    ∀ {c}, p.wp Γ Q c → p.wp Γ Q' c := by
  induction p with
  | ret a => intro c h; exact ⟨h.1, hQ a c h.2⟩
  | act f k ih => intro c h; exact h.mono fun c => ih c.data
  | lock l k ih =>
      intro c h
      refine h.mono fun c hc => ?_
      split at hc <;> rename_i hheld
      · rw [if_pos hheld]; exact hc
      · rw [if_neg hheld]; exact ih hc
  | unlock l k ih => intro c h; exact h.mono fun c => ih
  | readIf k ih => intro c h; exact h.mono fun c => ih c.ifl
  | cli k ih => intro c h; exact h.mono fun c => ih
  | sti k ih => intro c h; exact h.mono fun c => ih
  | hlt k ih =>
      intro c h
      exact h.mono fun c hc => ⟨hc.1, fun c' hw => ih (hc.2 c' hw)⟩
  | int3 k ih => intro c h; exact h.mono fun c => Γ.trap_mono fun c => ih
  | fault e => intro c h; exact h
  | haltLoop => intro c h; exact h

theorem wp_bind {p : Prog L S E α} {g : α → Prog L S E β}
    {Q : β → Cfg L S → Prop} :
    ∀ {c}, p.wp Γ (fun a c' => (g a).wp Γ Q c') c → (p.bind g).wp Γ Q c := by
  induction p with
  | ret a => intro c h; exact h.2
  | act f k ih => intro c h; exact h.mono fun c => ih c.data
  | lock l k ih =>
      intro c h
      refine h.mono fun c hc => ?_
      split at hc <;> rename_i hheld
      · rw [if_pos hheld]; exact hc
      · rw [if_neg hheld]; exact ih hc
  | unlock l k ih => intro c h; exact h.mono fun c => ih
  | readIf k ih => intro c h; exact h.mono fun c => ih c.ifl
  | cli k ih => intro c h; exact h.mono fun c => ih
  | sti k ih => intro c h; exact h.mono fun c => ih
  | hlt k ih =>
      intro c h
      exact h.mono fun c hc => ⟨hc.1, fun c' hw => ih (hc.2 c' hw)⟩
  | int3 k ih => intro c h; exact h.mono fun c => Γ.trap_mono fun c => ih
  | fault e => intro c h; exact h
  | haltLoop => intro c h; exact h

/-- Where every boundary has interrupts off, the code ends where its
uninterrupted reading says. -/
theorem wp_run {trap : Cfg L S → Outcome L S E Unit}
    (hpoint : ∀ c, Γ.point c → c.ifl = false) (hΓ : Γ.Gated)
    (hrest : ∀ c, ¬Γ.rest c)
    (htrap : ∀ P c, Γ.trap P c →
      Γ.trap (fun c' => P c' ∧ trap c = .done () c') c) (p : Prog L S E α) :
    ∀ {c}, p.wp Γ Q c →
      p.wp Γ (fun a c' => Q a c' ∧ p.run trap c = .done a c') c := by
  -- A boundary with interrupts off is read where it is and nowhere else.
  have lift : ∀ {P P' : Cfg L S → Prop} {c : Cfg L S}, Γ.At P c →
      (P c → P' c) → Γ.At P' c := fun {P P' c} h hPP' =>
    hΓ.at_intro (hpoint c h.point) h.point (hPP' h.here)
  induction p with
  | ret a => intro c h; exact ⟨h.1, h.2, rfl⟩
  | act f k ih => intro c h; exact lift h (ih c.data)
  | lock l k ih =>
      intro c h
      refine lift h fun hc => ?_
      split at hc <;> rename_i hheld
      · rw [if_pos hheld]; exact hc
      · rw [if_neg hheld]
        simp only [run, hheld]
        exact ih hc
  | unlock l k ih => intro c h; exact lift h ih
  | readIf k ih => intro c h; exact lift h (ih c.ifl)
  | cli k ih => intro c h; exact lift h ih
  | sti k ih => intro c h; exact lift h ih
  | hlt k ih => intro c h; exact lift h fun hc => absurd hc.1 (hrest _)
  | int3 k ih =>
      intro c h
      refine lift h fun hc => Γ.trap_mono (fun c' hc' => ?_) (htrap _ _ hc)
      simp only [run, hc'.2]
      exact ih hc'.1
  | fault e => intro c h; exact h
  | haltLoop => intro c h; exact h

/-! ## The lock discipline -/

/-- What locks and flag alone decide, whatever the data. `T` is what is
asked of the locks where the code traps, `F` the fatal events that may be
raised, `opened` whether the flag may be opened at all, and `A` the locks
the code may touch. -/
def Safe (T : (L → Bool) → Prop) (F : E → Prop) (opened : Bool) (A : L → Prop) :
    Prog L S E α → ((L → Bool) → Bool → Prop) → (L → Bool) → Bool → Prop
  | ret _, Q, h, b => Q h b
  | act _ k, Q, h, b => ∀ s, (k s).Safe T F opened A Q h b
  | lock l k, Q, h, b => (A l ∧ h l = false) ∧
      k.Safe T F opened A Q (Function.update h l true) b
  | unlock l k, Q, h, b => A l ∧
      k.Safe T F opened A Q (Function.update h l false) b
  | readIf k, Q, h, b => (k b).Safe T F opened A Q h b
  | cli k, Q, h, _ => k.Safe T F opened A Q h false
  | sti k, Q, h, _ => opened = true ∧ k.Safe T F opened A Q h true
  | hlt _, _, _, _ => False
  | int3 k, Q, h, b => T h ∧ k.Safe T F opened A Q h b
  | fault e, _, _, _ => F e
  | haltLoop, _, _, _ => True

section Discipline

variable {T : (L → Bool) → Prop} {F : E → Prop} {opened : Bool} {A B : L → Prop}
  {h : L → Bool} {b : Bool}

theorem Safe.mono {R R' : (L → Bool) → Bool → Prop} (hAB : ∀ l, A l → B l)
    (hR : ∀ h b, R h b → R' h b) {p : Prog L S E α} :
    ∀ {h b}, p.Safe T F opened A R h b → p.Safe T F opened B R' h b := by
  induction p with
  | ret a => intro h b hs; exact hR h b hs
  | act f k ih => intro h b hs s; exact ih s (hs s)
  | lock l k ih => intro h b hs; exact ⟨⟨hAB l hs.1.1, hs.1.2⟩, ih hs.2⟩
  | unlock l k ih => intro h b hs; exact ⟨hAB l hs.1, ih hs.2⟩
  | readIf k ih => intro h b hs; exact ih b hs
  | cli k ih => intro h b hs; exact ih hs
  | sti k ih => intro h b hs; exact ⟨hs.1, ih hs.2⟩
  | hlt k ih => intro h b hs; exact hs.elim
  | int3 k ih => intro h b hs; exact ⟨hs.1, ih hs.2⟩
  | fault e => intro h b hs; exact hs
  | haltLoop => intro h b hs; exact hs

theorem Safe.bind {R : (L → Bool) → Bool → Prop} {p : Prog L S E α}
    {g : α → Prog L S E β} :
    ∀ {h b}, p.Safe T F opened A (fun h' b' => ∀ a, (g a).Safe T F opened A R h' b') h b →
      (p.bind g).Safe T F opened A R h b := by
  induction p with
  | ret a => intro h b hs; exact hs a
  | act f k ih => intro h b hs s; exact ih s (hs s)
  | lock l k ih => intro h b hs; exact ⟨hs.1, ih hs.2⟩
  | unlock l k ih => intro h b hs; exact ⟨hs.1, ih hs.2⟩
  | readIf k ih => intro h b hs; exact ih b hs
  | cli k ih => intro h b hs; exact ih hs
  | sti k ih => intro h b hs; exact ⟨hs.1, ih hs.2⟩
  | hlt k ih => intro h b hs; exact hs.elim
  | int3 k ih => intro h b hs; exact ⟨hs.1, ih hs.2⟩
  | fault e => intro h b hs; exact hs
  | haltLoop => intro h b hs; exact hs

theorem Safe.zoom {R : (L → Bool) → Bool → Prop} (ln : Lens S W)
    {p : Prog L W E α} :
    ∀ {h b}, p.Safe T F opened A R h b → (p.zoom ln).Safe T F opened A R h b := by
  induction p with
  | ret a => intro h b hs; exact hs
  | act f k ih => intro h b hs s; exact ih (ln.get s) (hs (ln.get s))
  | lock l k ih => intro h b hs; exact ⟨hs.1, ih hs.2⟩
  | unlock l k ih => intro h b hs; exact ⟨hs.1, ih hs.2⟩
  | readIf k ih => intro h b hs; exact ih b hs
  | cli k ih => intro h b hs; exact ih hs
  | sti k ih => intro h b hs; exact ⟨hs.1, ih hs.2⟩
  | hlt k ih => intro h b hs; exact hs.elim
  | int3 k ih => intro h b hs; exact ⟨hs.1, ih hs.2⟩
  | fault e => intro h b hs; exact hs
  | haltLoop => intro h b hs; exact hs

/-- Safe code is fine in every logic that asks for nothing but locks and
flag, whatever interrupts do to the data. -/
theorem Safe.wp {R : (L → Bool) → Bool → Prop} {K : (L → Bool) → Prop}
    (hΓ : Γ.Lax opened K) (hA : ∀ {h l v}, A l → K h → K (Function.update h l v))
    (htrap : ∀ {P : Cfg L S → Prop} {c : Cfg L S},
      (c.ifl = true → opened = true) → T c.held →
      (∀ c', c'.held = c.held → c'.ifl = c.ifl → P c') → Γ.trap P c)
    (hfault : ∀ {e c}, F e → Γ.fault e c) (hstop : ∀ c, Γ.stop c)
    {p : Prog L S E α} :
    ∀ {c : Cfg L S}, (c.ifl = true → opened = true) → K c.held →
      p.Safe T F opened A R c.held c.ifl →
      p.wp Γ (fun _ c' => R c'.held c'.ifl) c := by
  induction p with
  | ret a => intro c ho hK hs; exact ⟨hΓ.point ho hK, hs⟩
  | act f k ih =>
      intro c ho hK hs
      refine hΓ.at_intro ho hK fun c' hh hi => ih c'.data ?_ ?_ ?_
      · simpa only [Cfg.update, hi] using ho
      · simpa only [Cfg.update, hh] using hK
      · simpa only [Cfg.update, hh, hi] using hs c'.data
  | lock l k ih =>
      intro c ho hK hs
      refine hΓ.at_intro ho hK fun c' hh hi => ?_
      rw [if_neg (by rw [hh, hs.1.2]; decide)]
      refine ih ?_ ?_ ?_
      · simpa only [Cfg.acquire, hi] using ho
      · simpa only [Cfg.acquire, hh] using hA hs.1.1 hK
      · simpa only [Cfg.acquire, hh, hi] using hs.2
  | unlock l k ih =>
      intro c ho hK hs
      refine hΓ.at_intro ho hK fun c' hh hi => ih ?_ ?_ ?_
      · simpa only [Cfg.release, hi] using ho
      · simpa only [Cfg.release, hh] using hA hs.1 hK
      · simpa only [Cfg.release, hh, hi, Safe] using hs.2
  | readIf k ih =>
      intro c ho hK hs
      refine hΓ.at_intro ho hK fun c' hh hi => ih c'.ifl ?_ ?_ ?_
      · simpa only [Cfg.next, hi] using ho
      · simpa only [Cfg.next, hh] using hK
      · simpa only [Cfg.next, hh, hi, Safe] using hs
  | cli k ih =>
      intro c ho hK hs
      refine hΓ.at_intro ho hK fun c' hh hi => ih (by simp [Cfg.closeIf]) ?_ ?_
      · simpa only [Cfg.closeIf, hh] using hK
      · simpa only [Cfg.closeIf, hh, Safe] using hs
  | sti k ih =>
      intro c ho hK hs
      refine hΓ.at_intro ho hK fun c' hh hi => ih (fun _ => hs.1) ?_ ?_
      · simpa only [Cfg.openIf, hh] using hK
      · simpa only [Cfg.openIf, hh] using hs.2
  | hlt k ih => intro c ho hK hs; exact hs.elim
  | int3 k ih =>
      intro c ho hK hs
      refine hΓ.at_intro ho hK fun c' hh hi => htrap ?_ ?_ fun d hdh hdi => ih ?_ ?_ ?_
      · simpa only [Cfg.next, hi] using ho
      · simpa only [Cfg.next, hh] using hs.1
      · simpa only [hdi, Cfg.next, hi] using ho
      · simpa only [hdh, Cfg.next, hh] using hK
      · simpa only [hdh, hdi, Cfg.next, hh, hi] using hs.2
  | fault e => intro c ho hK hs; exact hΓ.at_intro ho hK fun c' _ _ => hfault hs
  | haltLoop => intro c ho hK hs; exact hΓ.at_intro ho hK fun c' _ _ => hstop c'

/-- Safe code that returns leaves locks and flag as the postcondition says. -/
theorem Safe.run_done {R : (L → Bool) → Bool → Prop}
    {trap : Cfg L S → Outcome L S E Unit}
    (htrap : ∀ {c c'}, T c.held → trap c = .done () c' →
      c'.held = c.held ∧ c'.ifl = c.ifl)
    {a : α} {c' : Cfg L S} {p : Prog L S E α} :
    ∀ {c : Cfg L S}, p.Safe T F opened A R c.held c.ifl → p.run trap c = .done a c' →
      R c'.held c'.ifl := by
  induction p with
  | ret a =>
      intro c hs hrun
      obtain ⟨_, rfl⟩ := Outcome.done.inj hrun
      exact hs
  | act f k ih => intro c hs hrun; exact ih c.data (c := c.update f) (hs c.data) hrun
  | lock l k ih =>
      intro c hs hrun
      simp only [run, hs.1.2, Bool.false_eq_true, if_false] at hrun
      exact ih (c := c.acquire l) hs.2 hrun
  | unlock l k ih => intro c hs hrun; exact ih (c := c.release l) hs.2 hrun
  | readIf k ih => intro c hs hrun; exact ih c.ifl (c := c.next) hs hrun
  | cli k ih => intro c hs hrun; exact ih (c := c.closeIf) hs hrun
  | sti k ih => intro c hs hrun; exact ih (c := c.openIf) hs.2 hrun
  | hlt k ih => intro c hs hrun; exact hs.elim
  | int3 k ih =>
      intro c hs hrun
      obtain ⟨_, c₁, ht, hrun⟩ := Outcome.bind_eq_done hrun
      obtain ⟨hheld, hifl⟩ := htrap (c := c.next) hs.1 ht
      refine ih ?_ hrun
      rw [hheld, hifl]
      exact hs.2
  | fault e => intro c hs hrun; cases hrun
  | haltLoop => intro c hs hrun; cases hrun

/-- The code may be entered with the flag open only where `opened` says
so; it takes only locks of `A`, which are free when it starts, and gives
back the locks and the flag as it found them. -/
def Neutral (T : (L → Bool) → Prop) (F : E → Prop) (opened : Bool) (A : L → Prop)
    (p : Prog L S E α) : Prop :=
  ∀ h b, (b = true → opened = true) → (∀ l, A l → h l = false) →
    p.Safe T F opened A (fun h' b' => h' = h ∧ b' = b) h b

theorem Neutral.ret (a : α) :
    Neutral T F opened A (ret a : Prog L S E α) :=
  fun _ _ _ _ => ⟨rfl, rfl⟩

theorem Neutral.bind {p : Prog L S E α} {g : α → Prog L S E β}
    (hp : Neutral T F opened A p) (hg : ∀ a, Neutral T F opened A (g a)) :
    Neutral T F opened A (p.bind g) := by
  intro h b ho hA
  refine Safe.bind (Safe.mono (fun _ => id) (fun h' b' hhb a => ?_) (hp h b ho hA))
  obtain ⟨rfl, rfl⟩ := hhb
  exact hg a h' b' ho hA

theorem Neutral.act {f : S → S} {k : S → Prog L S E α}
    (hk : ∀ s, Neutral T F opened A (k s)) : Neutral T F opened A (act f k) :=
  fun h b ho hA s => hk s h b ho hA

theorem Neutral.get : Neutral T F opened A (get : Prog L S E S) :=
  Neutral.act fun s => Neutral.ret s

theorem Neutral.modify (f : S → S) :
    Neutral T F opened A (modify f : Prog L S E Unit) :=
  Neutral.act fun _ => Neutral.ret ()

theorem Neutral.attempt {f : S → Option (α × S)} {e : E} (he : F e) :
    Neutral T F opened A (attempt f e : Prog L S E α) := by
  refine Neutral.act fun s h b ho hA => ?_
  split
  · exact ⟨rfl, rfl⟩
  · exact he

/-- A critical section on a lock its body does not use. -/
theorem Neutral.withLock {l : L} {p : Prog L S E α}
    (hp : Neutral T F opened B p) (hl : A l)
    (hB : ∀ l', B l' → A l' ∧ l' ≠ l) :
    Neutral T F opened A (withLock l p) := by
  intro h b ho hA
  have hbody := hp (Function.update h l true) b ho fun l' hl' => by
    rw [Function.update_of_ne (hB l' hl').2]
    exact hA l' (hB l' hl').1
  refine ⟨⟨hl, hA l hl⟩, Safe.bind
    (Safe.mono (fun l' hl' => (hB l' hl').1) (fun h' b' hhb a => ?_) hbody)⟩
  obtain ⟨rfl, rfl⟩ := hhb
  refine ⟨hl, ?_, rfl⟩
  rw [Function.update_idem, ← hA l hl, Function.update_eq_self]

theorem Neutral.callOnce {l : L} {ready : S → Bool} {f : S → S} (hl : A l) :
    Neutral T F opened A (callOnce l ready f : Prog L S E Unit) := by
  refine Neutral.act fun s => ?_
  cases ready s with
  | true => exact Neutral.ret ()
  | false => exact Neutral.withLock (B := fun _ => False) (Neutral.modify _) hl (by simp)

/-- `without_interrupts` gives the flag back as it found it. -/
theorem Neutral.withoutInterrupts {p : Prog L S E α}
    (hp : Neutral T F opened A p) :
    Neutral T F opened A (withoutInterrupts p) := by
  intro h b ho hA
  cases b with
  | false => exact hp h false (by simp) hA
  | true =>
      refine Safe.bind (Safe.mono (fun _ => id) (fun h' b' hhb a => ?_)
        (hp h false (by simp) hA))
      exact ⟨ho rfl, hhb.1, rfl⟩

theorem Neutral.int3 (hT : ∀ h, (∀ l, A l → h l = false) → T h) :
    Neutral T F opened A (int3 (Prog.ret ()) : Prog L S E Unit) :=
  fun h _ _ hA => ⟨hT h hA, rfl, rfl⟩

theorem Neutral.fault {e : E} (he : F e) :
    Neutral T F opened A (fault e : Prog L S E α) :=
  fun _ _ _ _ => he

/-- An access that never panics. -/
theorem Neutral.attempt_total {f : S → Option (α × S)} {e : E}
    (hf : ∀ s, ∃ r, f s = some r) :
    Neutral T F opened A (Prog.attempt f e : Prog L S E α) := by
  refine Neutral.act fun s h b ho hA => ?_
  obtain ⟨r, hr⟩ := hf s
  rw [hr]
  exact ⟨rfl, rfl⟩

/-- The code stops for good, having taken only locks of `A`. -/
def Ends (T : (L → Bool) → Prop) (F : E → Prop) (opened : Bool) (A : L → Prop)
    (p : Prog L S E α) : Prop :=
  ∀ h b, (b = true → opened = true) → (∀ l, A l → h l = false) →
    p.Safe T F opened A (fun _ _ => False) h b

theorem Ends.haltLoop : Ends T F opened A (haltLoop : Prog L S E α) :=
  fun _ _ _ _ => trivial

theorem Ends.bind {p : Prog L S E α} {g : α → Prog L S E β}
    (hp : Neutral T F opened A p) (hg : ∀ a, Ends T F opened A (g a)) :
    Ends T F opened A (p.bind g) := by
  intro h b ho hA
  refine Safe.bind (Safe.mono (fun _ => id) (fun h' b' hhb a => ?_) (hp h b ho hA))
  obtain ⟨rfl, rfl⟩ := hhb
  exact hg a h' b' ho hA

/-- The discipline of a part's code is the discipline of the whole's. -/
theorem Neutral.zoom (ln : Lens S W) {p : Prog L W E α}
    (hp : Neutral T F opened A p) : Neutral T F opened A (p.zoom ln) :=
  fun h b ho hA => Safe.zoom ln (hp h b ho hA)

end Discipline

end Prog

end ProtoOs.Lib
