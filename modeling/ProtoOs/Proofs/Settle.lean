import ProtoOs.Proofs.Foretold

/-!
# The kernel left alone

From any state awake the kernel goes on by itself until it is asleep with
everything answered. Each block comes to its end or to an event, whatever
instruction it is at; from there on the argument is over the ends of blocks
alone. A turn of the drain takes a scancode from the queue, so the number
pending is what the drain is counted down by.

With that the ideal machine is not only respected but carried out: what it
answers to a stream some run of the kernel shows, and what it raises some
run raises.
-/

namespace ProtoOs.Ref

open ProtoOs.Lib ProtoOs.Lib.Prog

variable {H : Type} (pf : Platform H)

/-- Asleep with nothing pending, and the next interrupt will be taken. -/
structure Rested (m : Machine H) : Prop where
  halted : m.halted = true
  frames : m.frames = []
  code : m.code = .ret .head
  ifl : m.cfg.ifl = true
  shadow : m.cfg.shadow = false
  empty : m.cfg.data.queue.contents = []

/-- The event is one that boot panics with, or that the ideal machine raises
on what has been delivered. -/
def Justified (mem : Paging.Mem) (heap : H) (stream port : List UInt8) (e : Fatal) : Prop :=
  BootPanics pf mem e ∨
    ∃ delivered, stream = delivered ++ port ∧ Ideal.Foresees pf mem heap delivered e

/-- With nothing delivered, it comes to rest or to such an event, and
`port` is still to come. -/
def Settles (mem : Paging.Mem) (heap : H) (stream port : List UInt8) (m : Machine H) : Prop :=
  ∃ ls m', Run (system pf).step Ticks m ls m' ∧
    (Rested m' ∧ m'.cfg.data.port = port ∨
      ∃ e, m'.raised = some e ∧ Justified pf mem heap stream port e)

section Settles

variable {buffer : Buffer} {crtc : Crtc} {heap : H} {mem : Paging.Mem} {stream port : List UInt8}
  {m m' : Machine H} {ls : List (Label Fatal Unit)}

theorem Settles.of_run (hrun : Run (system pf).step Ticks m ls m')
    (h : Settles pf mem heap stream port m') : Settles pf mem heap stream port m := by
  obtain ⟨ls', m'', hrun', hend⟩ := h
  exact ⟨_, m'', hrun.trans hrun', hend⟩

/-- A block about to be entered, by the end of its uninterrupted reading. -/
theorem settles_block {p : Pc} (hf : m.frames = []) (hh : m.halted = false)
    (hcode : m.code = .ret p)
    (h : (∃ p' d, (block pf p).run (trapRun pf) m.cfg = .done p' d ∧
        ∀ ls, Run (system pf).step Ticks m ls { m with pc := p, code := .ret p', cfg := d } →
          Settles pf mem heap stream port { m with pc := p, code := .ret p', cfg := d }) ∨
      ∃ e d, (block pf p).run (trapRun pf) m.cfg = .fault e d ∧
        Justified pf mem heap stream port e) : Settles pf mem heap stream port m := by
  obtain ⟨ls, m', hrun, hend⟩ : ∃ ls m', Run (system pf).step Ticks m ls m' ∧
      System.Reached { m with pc := p } ((block pf p).run (trapRun pf) m.cfg) m' :=
    System.reaches_jump ticks_tick hf hh hcode
  rcases h with ⟨p', d, hd, hnext⟩ | ⟨e, d, hd, he⟩
  · rw [hd] at hend
    obtain rfl := hend
    exact (hnext ls hrun).of_run pf hrun
  · rw [hd] at hend
    exact ⟨ls, m', hrun, .inr ⟨e, hend.1, he⟩⟩

/-! ## From the end of a block -/

theorem noOverflow_idle (m : Machine H) (l : Label Fatal Unit) (h : NoOverflow m l) :
    IdleRun false m l := by
  cases l with
  | tick => trivial
  | irq i => exact fun hq => by cases hq
  | fatal e => exact h

theorem ticks_noOverflow (m : Machine H) (l : Label Fatal Unit) (h : Ticks m l) :
    NoOverflow m l := by
  rw [h]
  trivial

/-- At the end of a block the precondition of the next one holds. -/
theorem cut_entry (hrun : Run (system pf).step NoOverflow
      (Machine.start pf (Kernel.start buffer crtc heap mem stream)) ls m)
    (hf : m.frames = []) (hh : m.halted = false) {p : Pc} (hcode : m.code = .ret p) :
    loopEntry (Kernel.start buffer crtc heap mem stream)
      (Answered pf mem heap stream true) p m.cfg := by
  have hwp := (Proof.inv_main hf hh).mp (loop_inv pf (noOverflow_loopInv pf) hrun)
  rw [hcode] at hwp
  exact hwp.2

/-- From the way out, to sleep. -/
theorem settles_leave (hrun : Run (system pf).step NoOverflow
      (Machine.start pf (Kernel.start buffer crtc heap mem stream)) ls m)
    (hf : m.frames = []) (hh : m.halted = false) {enabled : Bool}
    (hcode : m.code = .ret (.leave enabled)) :
    Settles pf mem heap stream m.cfg.data.port m := by
  obtain ⟨hifl, hfree, _, hlen⟩ := cut_entry pf hrun hf hh hcode
  have hempty : m.cfg.data.queue.contents = [] := by
    rw [← List.length_eq_zero_iff, ScancodeQueue.contents_length, hlen]
  obtain ⟨⟨data, held, ifl, shadow⟩, halted, pc, code, frames⟩ := m
  obtain rfl : frames = [] := hf
  obtain rfl : halted = false := hh
  obtain rfl : code = .ret (.leave enabled) := hcode
  obtain rfl : held = noLock := hfree
  obtain rfl : ifl = false := hifl
  have ht : ∀ m : Machine H, Ticks m (.tick : Label Fatal Unit) := ticks_tick
  have hsleep : ∃ ls, Run (system pf).step Ticks
      (idling data false shadow false pc (ret (.leave enabled))) ls
      (idling data true false true (.leave enabled) (ret .head)) := by
    cases enabled with
    | false => exact ⟨_, ((Run.one (ht _) rfl).snoc (ht _) rfl).snoc (ht _) rfl⟩
    | true => exact ⟨_, (((Run.one (ht _) rfl).snoc (ht _) rfl).snoc (ht _) rfl).snoc (ht _) rfl⟩
  obtain ⟨ls', hrun'⟩ := hsleep
  exact ⟨ls', _, hrun', .inl ⟨⟨rfl, rfl, rfl, rfl, rfl, hempty⟩, rfl⟩⟩

/-- The drain, by the number of scancodes pending. -/
theorem settles_drain {enabled : Bool} (n : Nat) :
    ∀ {ls} {m : Machine H}, Run (system pf).step NoOverflow
        (Machine.start pf (Kernel.start buffer crtc heap mem stream)) ls m →
      m.frames = [] → m.halted = false → m.code = .ret (.drain enabled) →
      m.cfg.data.queue.contents.length = n → m.cfg.data.port = port →
      Settles pf mem heap stream port m := by
  induction n using Nat.strong_induction_on with
  | _ n ih =>
      intro ls m hrun hf hh hcode hn hport
      have hmore : ∀ {ls' m'}, Run (system pf).step Ticks m ls' m' →
          Run (system pf).step NoOverflow
            (Machine.start pf (Kernel.start buffer crtc heap mem stream)) (ls ++ ls') m' :=
        fun h => hrun.trans (h.mono ticks_noOverflow)
      obtain ⟨hifl, hfree, hJ⟩ := cut_entry pf hrun hf hh hcode
      refine settles_block pf hf hh hcode ?_
      rcases drain_run pf enabled hJ hfree hifl with
        ⟨d, hd, hport'⟩ | ⟨d, hd, hlt, hport'⟩ | ⟨e, d, delivered, hd, hsplit, he⟩
      · refine .inl ⟨_, d, hd, fun _ h => ?_⟩
        rw [← hport, ← hport']
        exact settles_leave pf (hmore h) hf hh rfl
      · exact .inl ⟨_, d, hd, fun _ h =>
          ih _ (hn ▸ hlt) (hmore h) hf hh rfl rfl (hport'.trans hport)⟩
      · exact .inr ⟨e, d, hd, .inr ⟨delivered, hport ▸ hsplit rfl, he⟩⟩

/-- The head goes into the drain, with the flag it found. -/
theorem settles_head (hrun : Run (system pf).step NoOverflow
      (Machine.start pf (Kernel.start buffer crtc heap mem stream)) ls m)
    (hf : m.frames = []) (hh : m.halted = false) (hcode : m.code = .ret .head) :
    Settles pf mem heap stream m.cfg.data.port m := by
  have hdrain : ∀ {ls} {m' : Machine H}, Run (system pf).step Ticks m ls m' →
      m'.frames = [] → m'.halted = false → ∀ {enabled}, m'.code = .ret (.drain enabled) →
      m'.cfg.data.port = m.cfg.data.port → Settles pf mem heap stream m.cfg.data.port m' := by
    intro ls' m' h hf' hh' enabled hcode' hport
    exact settles_drain pf _ (hrun.trans (h.mono ticks_noOverflow)) hf' hh' hcode' rfl hport
  refine settles_block pf hf hh hcode (.inl ?_)
  cases hifl : m.cfg.ifl with
  | true =>
      refine ⟨.drain true, m.cfg.next.closeIf, ?_, fun _ h => hdrain h hf hh rfl rfl⟩
      simp only [block, run, hifl]
      rfl
  | false =>
      refine ⟨.drain false, m.cfg.next, ?_, fun _ h => hdrain h hf hh rfl rfl⟩
      simp only [block, run, hifl]
      rfl

theorem settles_cut (hrun : Run (system pf).step NoOverflow
      (Machine.start pf (Kernel.start buffer crtc heap mem stream)) ls m)
    (hf : m.frames = []) (hh : m.halted = false) {p : Pc} (hcode : m.code = .ret p) :
    Settles pf mem heap stream m.cfg.data.port m := by
  cases p with
  | boot =>
      refine settles_block pf hf hh hcode ?_
      rcases boot_run pf (cut_entry pf hrun hf hh hcode) with ⟨d, hd, hport⟩ | ⟨e, d, hd, he⟩
      · refine .inl ⟨.head, d, hd, fun _ h => ?_⟩
        rw [← hport]
        exact settles_head pf (hrun.trans (h.mono ticks_noOverflow)) hf hh rfl
      · exact .inr ⟨e, d, hd, .inl he⟩
  | head => exact settles_head pf hrun hf hh hcode
  | drain enabled => exact settles_drain pf _ hrun hf hh hcode rfl rfl
  | leave enabled => exact settles_leave pf hrun hf hh hcode

/-- A sleeping kernel has answered what was delivered. -/
theorem rested_answered (hrun : Run (system pf).step NoOverflow
      (Machine.start pf (Kernel.start buffer crtc heap mem stream)) ls m) (hrest : Rested m) :
    ∃ delivered i, stream = delivered ++ m.cfg.data.port ∧
      Ideal.Reaches pf mem heap delivered i ∧ m.cfg.data.globals.Renders i := by
  have hm := loop_inv pf (noOverflow_loopInv pf) hrun
  obtain ⟨_, processed, i, hsplit, hreach, hr⟩ := loop_between pf hm hrest.frames
    (.inr (loop_asleep pf hm hrest.halted).2)
  refine ⟨processed, i, ?_, hreach, hr⟩
  rw [hsplit rfl, hrest.empty, List.append_nil]

/-! ## From any instruction -/

/-- Where the machine is awake and not on its way to sleep, what lies ahead
is the end of a block or an event. -/
theorem ahead_ends (hfore : Foretold pf mem heap stream true m) (hh : m.halted = false)
    (hb : ¬BeforeHlt m) :
    ((system pf).ahead m).Ends fun e =>
      BootPanics pf mem e ∨ Ideal.Foresees pf mem heap stream e := by
  have hplain : ∀ {sleeps}, m.code.Plain sleeps → sleeps = false → m.Returns →
      ((system pf).ahead m).Ends fun e =>
        BootPanics pf mem e ∨ Ideal.Foresees pf mem heap stream e := by
    intro sleeps hcode hs hreturns
    rw [hs] at hcode
    obtain ⟨p, d, hd⟩ : ∃ p d, (system pf).ahead m = .done p d :=
      System.ahead_of_plain hcode hreturns
    rw [hd]
    trivial
  unfold Foretold at hfore
  split at hfore
  · exact hfore.mono fun _ he => .inl he
  · refine hfore.mono fun _ he => .inr ?_
    obtain ⟨delivered, hp, hf⟩ := he
    exact hf.mono pf (hp rfl)
  · exact hplain hfore.1 rfl hfore.2
  next enabled hpc =>
    -- Its block has ended: what is left is a jump.
    cases hres : m.code.result? with
    | none => exact absurd ⟨enabled, hpc, hh, hres⟩ hb
    | some p =>
        refine hplain ?_ (Eq.refl false) hfore.2
        rw [result?_eq_some hres]
        trivial

/-- In every run without fatal events and without overflow, from any state
awake but not between the drain and its `hlt`, the kernel left alone gets to
sleep after finitely many instructions, with the queue empty, the flag open
and everything delivered answered as the ideal machine answers it; unless
boot panics or the ideal machine raises an event on the stream, and then it
raises that event. -/
theorem kernel_answers (hrun : Run (system pf).step NoOverflow
      (Machine.start pf (Kernel.start buffer crtc heap mem stream)) ls m)
    (hh : m.halted = false) (hb : ¬BeforeHlt m) :
    ∃ ls' m', Run (system pf).step Ticks m ls' m' ∧
      ((Rested m' ∧ ∃ delivered i, stream = delivered ++ m'.cfg.data.port ∧
          Ideal.Reaches pf mem heap delivered i ∧ m'.cfg.data.globals.Renders i) ∨
        ∃ e, m'.raised = some e ∧
          (BootPanics pf mem e ∨ Ideal.Foresees pf mem heap stream e)) := by
  have hm := loop_inv pf (noOverflow_loopInv pf) hrun
  have hends := ahead_ends pf (loop_foretold pf (noOverflow_loopInv pf) hrun) hh hb
  obtain ⟨ls₁, m₁, hrun₁, hend⟩ : ∃ ls' m', Run (system pf).step Ticks m ls' m' ∧
      System.Reached { m with frames := [] } ((system pf).ahead m) m' :=
    System.reaches ticks_tick hm.calm hh
  cases hout : (system pf).ahead m with
  | done p d =>
      rw [hout] at hend
      obtain rfl := hend
      have hcut := hrun.trans (hrun₁.mono ticks_noOverflow)
      obtain ⟨ls₂, m₂, hrun₂, hrest⟩ := settles_cut pf hcut rfl hh rfl
      refine ⟨_, m₂, hrun₁.trans hrun₂, ?_⟩
      rcases hrest with ⟨hrest, _⟩ | ⟨e, he, hj⟩
      · have hasleep := hcut.trans (hrun₂.mono ticks_noOverflow)
        exact .inl ⟨hrest, rested_answered pf hasleep hrest⟩
      · right
        refine ⟨e, he, hj.imp id ?_⟩
        rintro ⟨delivered, hsplit, hf⟩
        exact hf.mono pf ⟨_, hsplit.symm⟩
  | fault e d =>
      rw [hout] at hend hends
      exact ⟨ls₁, m₁, hrun₁, .inr ⟨e, hend.1, hends⟩⟩
  | spin l d => rw [hout] at hends; exact hends.elim
  | halt d => rw [hout] at hends; exact hends.elim

end Settles

/-- `Oi` pressed while the machine slept: woken up and left alone, it sleeps
again. -/
theorem kernel_answers_small :
    ∃ ls₁ m₁ ls m, Run (system smallPlatform).step NoOverflow (smallStart typedOi) ls₁ m₁ ∧
      m₁.halted = false ∧ m₁.cfg.data.queue.contents = typedOi ∧
      Run (system smallPlatform).step Ticks m₁ ls m ∧ Rested m ∧
      ∃ delivered i, typedOi = delivered ++ m.cfg.data.port ∧
        Ideal.Reaches smallPlatform (fun _ _ => .unused) 0 delivered i ∧
        m.cfg.data.globals.Renders i := by
  obtain ⟨ls₀, k, hsleep, hk⟩ := smallStart_sleeps (noOverflow_serves (H := Nat)).tick
    (typedOi ++ [])
  obtain ⟨ls₁, q, pics, hwake, _, hpending⟩ := wake smallPlatform noOverflow_serves hk
    (by decide) (by decide) false
  have hawake : ¬BeforeHlt
      (idling { k with queue := q, pics := pics, port := [] } true false false
        (.leave false) (ret .head) : Machine Nat) := by
    rintro ⟨_, _, _, hnone⟩
    cases hnone
  obtain ⟨ls, m, hrun, hend⟩ :=
    kernel_answers smallPlatform (hsleep.trans hwake) (Eq.refl false) hawake
  refine ⟨_, _, ls, m, hsleep.trans hwake, rfl, hpending, hrun, ?_⟩
  rcases hend with hrest | ⟨e, _, ⟨hnone, _⟩ | hforesees⟩
  · exact hrest
  · -- There is memory enough.
    obtain ⟨mi, hmi, _⟩ := smallPlatform_info
    rw [hmi] at hnone
    cases hnone
  · -- The ideal machine takes all of it.
    obtain ⟨_, i, _, _, hi, _, _⟩ := typedOi_presses
    obtain ⟨mi, hmi, hinfo⟩ := smallPlatform_info
    have hreach : Ideal.Reaches smallPlatform (fun _ _ => .unused) 0 typedOi i :=
      ⟨mi, hmi, hinfo ▸ hi⟩
    exact absurd hreach (hforesees.not_reaches smallPlatform)

/-! ## The ideal machine is carried out -/

section Realises

variable {buffer : Buffer} {crtc : Crtc} {heap : H} {mem : Paging.Mem} {stream : List UInt8}
  {m : Machine H} {ls : List (Label Fatal Unit)}

/-- Boot and the first turns of the loop. -/
theorem settles_start : Settles pf mem heap stream stream
    (Machine.start pf (Kernel.start buffer crtc heap mem stream)) := by
  obtain ⟨ls, m, hrun, hend⟩ : ∃ ls m, Run (system pf).step Ticks
      (Machine.start pf (Kernel.start buffer crtc heap mem stream)) ls m ∧
      System.Reached (Machine.start pf (Kernel.start buffer crtc heap mem stream))
        ((block pf .boot).run (trapRun pf)
          (entryCfg (Kernel.start buffer crtc heap mem stream))) m :=
    System.reaches_main ticks_tick (block pf .boot) rfl rfl rfl
  have hboot := boot_run pf (Eq.refl (entryCfg (Kernel.start buffer crtc heap mem stream)))
  rcases hboot with ⟨d, hd, hport⟩ | ⟨e, d, hd, he⟩
  · rw [hd] at hend
    have hcfg : m.cfg = d := by rw [hend]
    have hsettles := settles_head pf (hrun.mono ticks_noOverflow) (by rw [hend]; rfl)
      (by rw [hend]; rfl) (by rw [hend])
    rw [hcfg, hport] at hsettles
    exact hsettles.of_run pf hrun
  · rw [hd] at hend
    exact ⟨ls, m, hrun, .inr ⟨e, hend.1, .inl he⟩⟩

/-- A sleeping kernel takes the next scancode and comes to rest again, or to
the event it raises. -/
theorem rested_next (hrun : Run (system pf).step NoOverflow
      (Machine.start pf (Kernel.start buffer crtc heap mem stream)) ls m)
    (hrest : Rested m) {scancode : UInt8} {rest : List UInt8}
    (hport : m.cfg.data.port = scancode :: rest) :
    ∃ ls' m', Run (system pf).step NoOverflow m ls' m' ∧
      (Rested m' ∧ m'.cfg.data.port = rest ∨
        ∃ e, m'.raised = some e ∧ Justified pf mem heap stream rest e) := by
  have hm := loop_inv pf (noOverflow_loopInv pf) hrun
  obtain ⟨_, _, hfree, hv, _⟩ := loop_open pf hm hrest.ifl
  have hlen : m.cfg.data.queue.len < scancodeQueueCapacity := by
    rw [← ScancodeQueue.contents_length, hrest.empty]
    decide
  obtain ⟨hhalted, hf, hcode, hifl, hshadow, hempty⟩ := hrest
  obtain ⟨⟨k, held, ifl, shadow⟩, halted, pc, code, frames⟩ := m
  obtain rfl : frames = [] := hf
  obtain rfl : halted = true := hhalted
  obtain rfl : code = .ret .head := hcode
  obtain rfl : held = noLock := hfree
  obtain rfl : ifl = true := hifl
  obtain rfl : shadow = false := hshadow
  obtain ⟨q, hq, _⟩ := ScancodeQueue.push_spec hv (k.port.headD 0)
  have hG : ∀ m : Machine H, NoOverflow m .tick := fun _ => trivial
  have hcons : k.port = scancode :: rest := hport
  have hne : k.port ≠ [] := by
    rw [hcons]
    exact List.cons_ne_nil _ _
  obtain ⟨ls₁, pics, h₁⟩ := run_irq pf hG hq true pc (ret .head) ⟨hlen, hne⟩
  rw [hcons, List.tail_cons] at h₁
  obtain ⟨ls₂, m₂, h₂, hend⟩ := settles_cut pf (hrun.trans h₁) rfl rfl rfl
  exact ⟨_, m₂, h₁.trans (h₂.mono ticks_noOverflow), hend⟩

theorem Justified.not_reaches {delivered rest : List UInt8} {e : Fatal} {i : Ideal H}
    (h : Justified pf mem heap (delivered ++ rest) rest e) :
    ¬Ideal.Reaches pf mem heap delivered i := by
  intro hreach
  rcases h with ⟨hnone, _⟩ | ⟨delivered', hsplit, hf⟩
  · obtain ⟨mi, hmi, _⟩ := hreach
    rw [hnone] at hmi
    cases hmi
  · obtain rfl := List.append_cancel_right hsplit
    exact hf.not_reaches pf hreach

/-- One interrupt per sleep delivers what the ideal machine answers. -/
theorem rests_after (delivered : List UInt8) : ∀ (rest : List UInt8) {i : Ideal H},
    Ideal.Reaches pf mem heap delivered i →
    ∃ ls m, Run (system pf).step NoOverflow
        (Machine.start pf (Kernel.start buffer crtc heap mem (delivered ++ rest))) ls m ∧
      Rested m ∧ m.cfg.data.port = rest := by
  induction delivered using List.reverseRecOn with
  | nil =>
      intro rest i h
      obtain ⟨ls, m, hrun, hrest | ⟨e, _, hj⟩⟩ : Settles pf mem heap ([] ++ rest) rest
          (Machine.start pf (Kernel.start buffer crtc heap mem ([] ++ rest))) := settles_start pf
      · exact ⟨ls, m, hrun.mono ticks_noOverflow, hrest⟩
      · exact absurd h (hj.not_reaches pf)
  | append_singleton delivered scancode ih =>
      intro rest i h
      obtain ⟨i', h', _⟩ := h.of_snoc
      obtain ⟨ls, m, hrun, hrest, hport⟩ := ih (scancode :: rest) h'
      have hstream : delivered ++ scancode :: rest = delivered ++ [scancode] ++ rest := by simp
      rw [hstream] at hrun
      obtain ⟨ls', m', hrun', hrest' | ⟨e, _, hj⟩⟩ := rested_next pf hrun hrest hport
      · exact ⟨_, m', hrun.trans hrun', hrest'⟩
      · exact absurd h (hj.not_reaches pf)

theorem rested_realised {delivered : List UInt8} {i : Ideal H}
    (h : Ideal.Reaches pf mem heap delivered i) (rest : List UInt8) :
    ∃ ls m, Run (system pf).step NoOverflow
        (Machine.start pf (Kernel.start buffer crtc heap mem (delivered ++ rest))) ls m ∧
      Rested m ∧ m.cfg.data.port = rest ∧ m.cfg.data.globals.Renders i := by
  obtain ⟨ls, m, hrun, hrest, hport⟩ := rests_after pf delivered rest h
  obtain ⟨delivered', i', hsplit, hreach, hr⟩ := rested_answered pf hrun hrest
  rw [hport] at hsplit
  obtain rfl := List.append_cancel_right hsplit
  exact ⟨ls, m, hrun, hrest, hport, h.unique pf hreach ▸ hr⟩

theorem raised_realised {delivered : List UInt8} {e : Fatal}
    (h : Ideal.Foresees pf mem heap delivered e) (rest : List UInt8) :
    ∃ ls m, Run (system pf).step NoOverflow
        (Machine.start pf (Kernel.start buffer crtc heap mem (delivered ++ rest))) ls m ∧
      m.raised = some e := by
  obtain ⟨processed, scancode, more, i, rfl, hreach, hpress⟩ := h.press
  have hf := hreach.foresees pf hpress
  obtain ⟨ls, m, hrun, hrest, hport⟩ :=
    rests_after pf processed (scancode :: more ++ rest) hreach
  rw [← List.append_assoc] at hrun
  have hcancel : ∀ {delivered}, processed ++ scancode :: more ++ rest =
      delivered ++ (more ++ rest) → delivered = processed ++ [scancode] := by
    intro delivered hsplit
    rw [List.append_cons, List.append_assoc] at hsplit
    exact (List.append_cancel_right hsplit).symm
  obtain ⟨ls', m', hrun', ⟨hrest', hport'⟩ | ⟨e', he', hj⟩⟩ := rested_next pf hrun hrest hport
  · -- Asleep again, it would have answered what it raises an event on.
    obtain ⟨delivered, i', hsplit, hreach', _⟩ := rested_answered pf (hrun.trans hrun') hrest'
    rw [hport'] at hsplit
    rw [hcancel hsplit] at hreach'
    exact absurd hreach' (hf.not_reaches pf)
  · refine ⟨_, m', hrun.trans hrun', ?_⟩
    rcases hj with ⟨hnone, _⟩ | ⟨delivered, hsplit, hf'⟩
    · obtain ⟨mi, hmi, _⟩ := hreach
      rw [hnone] at hmi
      cases hmi
    · rw [hcancel hsplit] at hf'
      rw [he', hf'.unique pf hf]

/-- The kernel carries out the ideal machine: what the ideal machine answers
to a part of the stream, some run shows asleep, with the rest still to come;
and the event it raises on it, some run raises. -/
theorem kernel_realises_ideal (delivered rest : List UInt8) :
    (∀ i, Ideal.Reaches pf mem heap delivered i →
      ∃ ls m, Run (system pf).step NoOverflow
          (Machine.start pf (Kernel.start buffer crtc heap mem (delivered ++ rest))) ls m ∧
        Rested m ∧ m.cfg.data.port = rest ∧ m.cfg.data.globals.Renders i) ∧
    ∀ e, Ideal.Foresees pf mem heap delivered e →
      ∃ ls m, Run (system pf).step NoOverflow
          (Machine.start pf (Kernel.start buffer crtc heap mem (delivered ++ rest))) ls m ∧
        m.raised = some e :=
  ⟨fun _ h => rested_realised pf h rest, fun _ h => raised_realised pf h rest⟩

end Realises

end ProtoOs.Ref
