import ProtoOs.Lib.Fatal
import ProtoOs.Lib.Follow

/-!
# At most one fatal handler gets past the flag

A system whose fatal handlers all start by setting a flag and looking at what
it was. The handler that finds it clear has a text to put on something that
a lock guards, item by item and each item in pieces; a handler that finds it
set keeps away from both, and so do the interrupts.

An event may strike anywhere, also in the handler of another event and also
before that handler has come to the flag. Still at most one handler ever
touches what is guarded, the one that found the flag clear, because of the
frames under the innermost fatal one none ever goes on (`fatal_stays`). What
the others can be doing at any moment is little (`Idle`), so the invariant
only has to follow one frame (`Won`), and before there is one, none
(`Struck`).
-/

namespace ProtoOs.Lib

variable {L S W E I P V X Y : Type}

/-- What is left to put: the pieces of the item begun, and the items after
it. -/
structure Left (X Y : Type) where
  begun : List Y
  items : List X

/-- An access puts the next piece, or finds out what the pieces of the next
item are, or does nothing. -/
inductive Tells (pieces : V → X → List Y) (perform : V → Y → Option V) (v v' : V) :
    Left X Y → Left X Y → Prop
  | nothing {left : Left X Y} (hv : v' = v) : Tells pieces perform v v' left left
  | begin {x : X} {xs : List X} (hv : v' = v) :
      Tells pieces perform v v' ⟨[], x :: xs⟩ ⟨pieces v x, xs⟩
  | piece {y : Y} {ys : List Y} {xs : List X} (hv : perform v y = some v') :
      Tells pieces perform v v' ⟨y :: ys, xs⟩ ⟨ys, xs⟩

/-- A flag, something to put texts on, and the lock that guards it. -/
structure Stage (L S V X Y : Type) where
  flag : S → Bool
  view : S → V
  guard : L
  /-- The pieces an item is put in, from where it is put. -/
  pieces : V → X → List Y
  perform : V → Y → Option V

namespace Stage

variable (st : Stage L S V X Y)

def put (v : V) (x : X) : Option V := (st.pieces v x).foldlM st.perform v

/-- An access that keeps away from the flag and from what is guarded. -/
def quiet (_ : Unit) (s s' : S) (_ : Unit) : Prop :=
  st.flag s' = st.flag s ∧ st.view s' = st.view s

/-- An access that leaves the flag alone and puts at most a piece. -/
def tells (left : Left X Y) (s s' : S) (left' : Left X Y) : Prop :=
  st.flag s' = st.flag s ∧ Tells st.pieces st.perform (st.view s) (st.view s') left left'

def Silent (p : Prog L S E Unit) : Prop :=
  p.Follows st.quiet (· ≠ st.guard) (fun _ _ => True) ()

/-- Code that has `left` to put. -/
def Telling (left : Left X Y) (p : Prog L S E Unit) : Prop :=
  p.Follows st.tells (fun _ => True) (fun _ _ => True) left

/-- The same, in data of which this is a part. -/
def within (ln : Lens W S) : Stage L W V X Y :=
  ⟨fun w => st.flag (ln.get w), fun w => st.view (ln.get w), st.guard, st.pieces, st.perform⟩

variable {st}

theorem Silent.zoom (ln : Lens W S) {p : Prog L S E Unit} (h : st.Silent p) :
    (st.within ln).Silent (p.zoom ln) :=
  Prog.Follows.zoom ln h

theorem Telling.zoom (ln : Lens W S) {left : Left X Y} {p : Prog L S E Unit}
    (h : st.Telling left p) : (st.within ln).Telling left (p.zoom ln) :=
  Prog.Follows.zoom ln h

/-! ## What has been put -/

variable (st) in
/-- From `v₁` on the first items of the text have been put, and of the one
after them the first pieces; `left` is left. -/
def Put (text : List X) (v₁ v : V) (left : Left X Y) : Prop :=
  ∃ said w part, said.foldlM st.put v₁ = some w ∧ part.foldlM st.perform w = some v ∧
    (part = [] ∧ left.begun = [] ∧ text = said ++ left.items ∨
      ∃ x, text = said ++ x :: left.items ∧ st.pieces w x = part ++ left.begun)

section Put

variable {text : List X} {v₁ v v' : V} {left left' : Left X Y}

theorem Put.start : st.Put text v v ⟨[], text⟩ :=
  ⟨[], v, [], rfl, rfl, .inl ⟨rfl, rfl, rfl⟩⟩

theorem Put.tells (h : st.Put text v₁ v left)
    (ht : Tells st.pieces st.perform v v' left left') : st.Put text v₁ v' left' := by
  obtain ⟨said, w, part, hsaid, hpart, hleft⟩ := h
  cases ht with
  | nothing hv => exact hv ▸ ⟨said, w, part, hsaid, hpart, hleft⟩
  | @begin x xs hv =>
      obtain rfl := hv
      rcases hleft with ⟨rfl, _, rfl⟩ | ⟨x₀, rfl, hpieces⟩
      · obtain rfl := Option.some.inj hpart
        exact ⟨said, w, [], hsaid, rfl, .inr ⟨x, rfl, rfl⟩⟩
      · -- All pieces of the item before it have been put.
        rw [List.append_nil] at hpieces
        refine ⟨said ++ [x₀], v', [], ?_, rfl, .inr ⟨x, by simp, rfl⟩⟩
        rw [List.foldlM_append, hsaid]
        simp only [Option.bind_eq_bind, Option.bind_some, List.foldlM_cons, put, hpieces, hpart]
        rfl
  | @piece y ys xs hv =>
      rcases hleft with ⟨_, hnone, _⟩ | ⟨x, htext, hpieces⟩
      · cases hnone
      · refine ⟨said, w, part ++ [y], hsaid, ?_, .inr ⟨x, htext, by simpa using hpieces⟩⟩
        rw [List.foldlM_append, hpart]
        simp only [Option.bind_eq_bind, Option.bind_some, List.foldlM_cons, hv]
        rfl

/-- The items put begin the text, and so do the pieces put of the next one. -/
theorem Put.parts (h : st.Put text v₁ v left) :
    ∃ said w part, said <+: text ∧ said.foldlM st.put v₁ = some w ∧
      (part = [] ∨ ∃ x, said ++ [x] <+: text ∧ part <+: st.pieces w x) ∧
      part.foldlM st.perform w = some v := by
  obtain ⟨said, w, part, hsaid, hpart, ⟨hnone, _, rfl⟩ | ⟨x, rfl, hpieces⟩⟩ := h
  · exact ⟨said, w, part, ⟨_, rfl⟩, hsaid, .inl hnone, hpart⟩
  · exact ⟨said, w, part, ⟨_, rfl⟩, hsaid,
      .inr ⟨x, ⟨left.items, by simp⟩, ⟨left.begun, hpieces.symm⟩⟩, hpart⟩

end Put

end Stage

/-- The fatal handlers of the system are told apart by the flag. -/
structure Once (sys : System L S E I P) (st : Stage L S V X Y) (text : E → List X) : Prop where
  irq : ∀ i, st.Silent (sys.irq i)
  fatal : ∀ e, ∃ f k, sys.fatal e = .act f k ∧ ∀ s,
    st.flag (f s) = true ∧ st.view (f s) = st.view s ∧
    (st.flag s = true → st.Silent (k s)) ∧ (st.flag s = false → st.Telling ⟨[], text e⟩ (k s))

variable [DecidableEq L]

/-! ## What never goes on -/

section Stays

variable {sys : System L S E I P} {m m' : Cpu L S E P}

omit [DecidableEq L] in
theorem signal_frames (sys : System L S E I P) (m : Cpu L S E P) (sig : Signal) :
    (sys.signal m sig).pc = m.pc ∧ (sys.signal m sig).code = m.code ∧
      ∃ new, (sys.signal m sig).frames = new ++ m.frames := by
  cases sig with
  | next => exact ⟨rfl, rfl, [], rfl⟩
  | sleep => exact ⟨rfl, rfl, [], rfl⟩
  | trap => exact ⟨rfl, rfl, [_], rfl⟩

/-- A fatal frame stays on the stack, over what it interrupted. -/
theorem fatal_stays {l : Label E I} {above fs : List (Frame L S E)} {f : Frame L S E}
    (hf : m.frames = above ++ f :: fs) (hk : f.kind = .fatal) (hn : sys.step m l = some m') :
    m'.pc = m.pc ∧ m'.code = m.code ∧
      ∃ above' f', m'.frames = above' ++ f' :: fs ∧ f'.kind = .fatal := by
  have henter : ∀ kind closes code,
      (m.enter kind closes code).frames = (⟨kind, m.cfg.ifl, code⟩ :: above) ++ f :: fs := by
    intro kind closes code
    simp [Cpu.enter, hf]
  rcases System.step_cases hn with ⟨rfl, ht⟩ | ⟨i, rfl, _, _, rfl⟩ | ⟨e, rfl, _, rfl⟩
  · cases above with
    | nil =>
        rcases FatalProof.tick_frame hf ht with ⟨_, _, hnk, _⟩ | ⟨k, c, sig, _, rfl⟩
        · exact absurd hk hnk
        · obtain ⟨hpc, hcode, new, hnew⟩ := signal_frames sys
            { m with frames := { f with code := k } :: fs, cfg := c } sig
          exact ⟨hpc, hcode, new, _, hnew, hk⟩
    | cons g above =>
        rw [List.cons_append] at hf
        rcases FatalProof.tick_frame hf ht with ⟨_, _, _, rfl⟩ | ⟨k, c, sig, _, rfl⟩
        · exact ⟨rfl, rfl, above, f, rfl, hk⟩
        · obtain ⟨hpc, hcode, new, hnew⟩ := signal_frames sys
            { m with frames := { g with code := k } :: (above ++ f :: fs), cfg := c } sig
          exact ⟨hpc, hcode, new ++ { g with code := k } :: above, f, by simp [hnew], hk⟩
  · exact ⟨rfl, rfl, _, f, henter _ _ _, hk⟩
  · exact ⟨rfl, rfl, _, f, henter _ _ _, hk⟩

theorem Run.fatal_stays {G : Cpu L S E P → Label E I → Prop} {ls : List (Label E I)}
    (hrun : Run sys.step G m ls m') {above fs : List (Frame L S E)} {f : Frame L S E}
    (hf : m.frames = above ++ f :: fs) (hk : f.kind = .fatal) :
    m'.pc = m.pc ∧ m'.code = m.code ∧
      ∃ above' f', m'.frames = above' ++ f' :: fs ∧ f'.kind = .fatal := by
  induction hrun with
  | nil => exact ⟨rfl, rfl, above, f, hf, hk⟩
  | snoc _ _ hn ih =>
      obtain ⟨hpc, hcode, above', f', hf', hk'⟩ := ih
      obtain ⟨hpc', hcode', hframes⟩ := Lib.fatal_stays hf' hk' hn
      exact ⟨hpc'.trans hpc, hcode'.trans hcode, hframes⟩

end Stays

namespace Stage

variable (sys : System L S E I P) (st : Stage L S V X Y) (text : E → List X)

/-! ## What a frame may be doing -/

/-- A fatal handler that has not come to the flag, or anything silent. -/
def Idle (f : Frame L S E) : Prop :=
  f.kind = .fatal ∧ (∃ e, f.code = sys.fatal e) ∨ st.Silent f.code

/-- The stack is idle down to a fatal frame over `base`, which is a `D`. -/
inductive Under (D : Frame L S E → Prop) (base : List (Frame L S E)) :
    List (Frame L S E) → Prop
  | here {f : Frame L S E} (hk : f.kind = .fatal) (hf : D f) : Under D base (f :: base)
  | above {f : Frame L S E} {fs : List (Frame L S E)} (hf : st.Idle sys f)
      (h : Under D base fs) : Under D base (f :: fs)

/-- A fatal event has struck `m₁`, and no handler has found the flag clear
since. -/
def Struck (m₁ m : Cpu L S E P) : Prop :=
  st.Under sys (st.Idle sys) m₁.frames m.frames ∧ st.view m.cfg.data = st.view m₁.cfg.data

/-- The handler of `e`, over `below`, has. -/
def Won (m₁ : Cpu L S E P) (below : List (Frame L S E)) (e : E) (m : Cpu L S E P) : Prop :=
  ∃ left, st.Under sys (fun f => st.Telling left f.code) below m.frames ∧
    st.flag m.cfg.data = true ∧
    st.Put (text e) (st.view m₁.cfg.data) (st.view m.cfg.data) left

/-- The handler of `e` over `below` is at its first instruction, and the flag
is clear. -/
def Wins (m : Cpu L S E P) (below : List (Frame L S E)) (e : E) : Prop :=
  ∃ saved, m.frames = ⟨.fatal, saved, sys.fatal e⟩ :: below ∧ st.flag m.cfg.data = false

/-- With this instruction, the fatal handler over `below` takes the lock or
changes what it guards. -/
def Touches (m m' : Cpu L S E P) (below : List (Frame L S E)) : Prop :=
  ∃ f, m.frames = f :: below ∧ f.kind = .fatal ∧
    (m.wants = some st.guard ∨ st.view m'.cfg.data ≠ st.view m.cfg.data)

/-- It does, or it finds the flag clear. -/
def Acts (m m' : Cpu L S E P) (below : List (Frame L S E)) : Prop :=
  (∃ e, st.Wins sys m below e) ∨ st.Touches m m' below

variable {sys st text}

section Step

variable {f : Frame L S E} {k : Prog L S E Unit} {c c' : Cfg L S} {sig : Signal}

theorem Silent.step (h : st.Silent f.code) (hs : f.code.step c = some (k, c', sig)) :
    sig = .next ∧ st.flag c'.data = st.flag c.data ∧ st.view c'.data = st.view c.data ∧
      st.Silent k := by
  obtain ⟨hsig, _, hdata, hk⟩ := Prog.Follows.step h hs
  rcases hdata with hR | ⟨_, hdata⟩
  · exact ⟨hsig, hR.1, hR.2, hk⟩
  · rw [hdata]
    exact ⟨hsig, rfl, rfl, hk⟩

/-- An instruction of a frame that has something left to put: it puts the
next piece of it, or nothing. -/
theorem Telling.step {left : Left X Y} (h : st.Telling left f.code)
    (hs : f.code.step c = some (k, c', sig)) :
    sig = .next ∧ st.flag c'.data = st.flag c.data ∧ ∃ left',
      Tells st.pieces st.perform (st.view c.data) (st.view c'.data) left left' ∧
      st.Telling left' k := by
  obtain ⟨hsig, left', hdata, hk⟩ := Prog.Follows.step h hs
  rcases hdata with ⟨hflag, htells⟩ | ⟨rfl, hdata⟩
  · exact ⟨hsig, hflag, left', htells, hk⟩
  · rw [hdata]
    exact ⟨hsig, rfl, left', .nothing rfl, hk⟩

omit [DecidableEq L] in
/-- What sets the flag is not silent where it is clear. -/
theorem Silent.flag_of_fatal (ho : Once sys st text) {p : Prog L S E Unit} (h : st.Silent p)
    {e : E} (hp : p = sys.fatal e) (s : S) : st.flag s = true := by
  obtain ⟨enter, rest, hfatal, hrest⟩ := ho.fatal e
  rw [hp, hfatal] at h
  obtain ⟨_, hquiet, _⟩ := h s
  exact hquiet.1.symm.trans (hrest s).1

/-- An instruction of an idle frame leaves what is guarded alone. The frame
stays idle, or it is a handler that has found the flag clear. -/
theorem Idle.step (ho : Once sys st text) (h : st.Idle sys f)
    (hs : f.code.step c = some (k, c', sig)) :
    sig = .next ∧ st.view c'.data = st.view c.data ∧
      (st.Idle sys { f with code := k } ∧ (st.flag c.data = true → st.flag c'.data = true) ∧
          (∀ e, f.code = sys.fatal e → st.flag c.data = true) ∨
        ∃ e, f.kind = .fatal ∧ f.code = sys.fatal e ∧ st.flag c.data = false ∧
          st.flag c'.data = true ∧ st.Telling ⟨[], text e⟩ k) := by
  rcases h with ⟨hkind, e, he⟩ | h
  · obtain ⟨enter, rest, hfatal, hrest⟩ := ho.fatal e
    obtain ⟨hset, hview, hagain, hfirst⟩ := hrest c.data
    rw [he, hfatal] at hs
    cases hs
    refine ⟨rfl, hview, ?_⟩
    cases hflag : st.flag c.data with
    | false => exact .inr ⟨e, hkind, he, rfl, hset, hfirst hflag⟩
    | true => exact .inl ⟨.inr (hagain hflag), fun _ => hset, fun _ _ => rfl⟩
  · obtain ⟨hsig, hflag, hview, hk⟩ := h.step hs
    exact ⟨hsig, hview, .inl ⟨.inr hk, fun ht => hflag.trans ht,
      fun _ he => h.flag_of_fatal ho he _⟩⟩

omit [DecidableEq L] in
theorem Idle.wants (ho : Once sys st text) (h : st.Idle sys f) :
    f.code.wants ≠ some st.guard := by
  intro hw
  rcases h with ⟨_, e, he⟩ | h
  · obtain ⟨enter, rest, hfatal, _⟩ := ho.fatal e
    rw [he, hfatal] at hw
    cases hw
  · exact Prog.Follows.wants h hw rfl

end Step

/-! ## What a step of the machine keeps -/

section Machine

variable {m₁ m m' : Cpu L S E P} {l : Label E I}

/-- What is delivered starts a frame that is idle, and changes no data. -/
theorem Under.delivered (ho : Once sys st text) {D : Frame L S E → Prop}
    {base : List (Frame L S E)} (h : st.Under sys D base m.frames)
    (hn : sys.step m l = some m') (hl : l ≠ .tick) :
    st.Under sys D base m'.frames ∧ m'.cfg.data = m.cfg.data := by
  have hdata : ∀ kind closes code,
      (m.enter kind closes code).cfg.data = m.cfg.data := by
    intro kind closes code
    cases closes <;> rfl
  rcases System.step_cases hn with ⟨rfl, _⟩ | ⟨i, _, _, _, rfl⟩ | ⟨e, _, _, rfl⟩
  · exact absurd rfl hl
  · exact ⟨h.above (.inr (ho.irq i)), hdata _ _ _⟩
  · exact ⟨h.above (.inl ⟨rfl, e, rfl⟩), hdata _ _ _⟩

omit [DecidableEq L] in
theorem Touches.eq {f : Frame L S E} {below fs : List (Frame L S E)}
    (h : st.Touches m m' below) (hf : m.frames = f :: fs) :
    below = fs ∧ (f.code.wants = some st.guard ∨ st.view m'.cfg.data ≠ st.view m.cfg.data) := by
  obtain ⟨f', hf', _, htouch⟩ := h
  obtain ⟨rfl, rfl⟩ := List.cons.inj (hf.symm.trans hf')
  unfold Cpu.wants at htouch
  rw [hf'] at htouch
  exact ⟨rfl, htouch⟩

/-- An instruction of the topmost frame, where that is idle: it returns, or
goes on idle, or is a handler that has found the flag clear. -/
theorem tick_idle (ho : Once sys st text) {f : Frame L S E} {fs : List (Frame L S E)}
    (hf : m.frames = f :: fs) (hidle : st.Idle sys f) (ht : sys.tick m = some m') :
    (st.view m'.cfg.data = st.view m.cfg.data ∧ ∀ below, ¬st.Touches m m' below) ∧
      (f.kind ≠ .fatal ∧ m'.frames = fs ∧ m'.cfg.data = m.cfg.data ∨
        (∃ f', f'.kind = f.kind ∧ m'.frames = f' :: fs ∧ st.Idle sys f' ∧
          (st.flag m.cfg.data = true → st.flag m'.cfg.data = true) ∧
          ∀ e, f.code = sys.fatal e → st.flag m.cfg.data = true) ∨
        ∃ f' e, f = ⟨.fatal, f.saved, sys.fatal e⟩ ∧ st.flag m.cfg.data = false ∧
          f'.kind = .fatal ∧ m'.frames = f' :: fs ∧ st.flag m'.cfg.data = true ∧
          st.Telling ⟨[], text e⟩ f'.code) := by
  have htouch : st.view m'.cfg.data = st.view m.cfg.data →
      ∀ below, ¬st.Touches m m' below := by
    intro hview below h
    obtain ⟨_, hwants | hne⟩ := h.eq hf
    · exact hidle.wants ho hwants
    · exact hne hview
  rcases FatalProof.tick_frame hf ht with ⟨_, _, hk, rfl⟩ | ⟨k, c, sig, hs, rfl⟩
  · exact ⟨⟨rfl, htouch rfl⟩, .inl ⟨hk, rfl, rfl⟩⟩
  · obtain ⟨rfl, hview, hnext⟩ := hidle.step ho hs
    refine ⟨⟨hview, htouch hview⟩, .inr ?_⟩
    rcases hnext with ⟨hk, hflag, hset⟩ | ⟨e, hkind, he, hclear, hset, hk⟩
    · exact .inl ⟨{ f with code := k }, rfl, rfl, hk, hflag, hset⟩
    · refine .inr ⟨{ f with code := k }, e, ?_, hclear, hkind, rfl, hset, hk⟩
      rw [← hkind, ← he]

omit [DecidableEq L] in
theorem Wins.eq {f : Frame L S E} {below fs : List (Frame L S E)} {e : E}
    (h : st.Wins sys m below e) (hf : m.frames = f :: fs) :
    below = fs ∧ f.kind = .fatal ∧ f.code = sys.fatal e ∧ st.flag m.cfg.data = false := by
  obtain ⟨saved, hf', hclear⟩ := h
  obtain ⟨rfl, rfl⟩ := List.cons.inj (hf.symm.trans hf')
  exact ⟨rfl, rfl, rfl, hclear⟩

/-- Until a handler finds the flag clear, nothing guarded is touched. -/
theorem Struck.step (ho : Once sys st text) (h : st.Struck sys m₁ m)
    (hn : sys.step m l = some m') :
    st.Struck sys m₁ m' ∧ (l = .tick → ∀ below, ¬st.Acts sys m m' below) ∨
      ∃ below e, l = .tick ∧ st.Wins sys m below e ∧ st.Won sys text m₁ below e m' ∧
        ∀ below', st.Acts sys m m' below' → below' = below := by
  obtain ⟨hunder, hview⟩ := h
  by_cases hl : l = .tick
  · subst hl
    -- Whatever frame is on top, it is idle; only one that is not fatal returns.
    obtain ⟨f, fs, hf, hidle, hpop, hrest⟩ : ∃ f fs, m.frames = f :: fs ∧ st.Idle sys f ∧
        (f.kind ≠ .fatal → st.Under sys (st.Idle sys) m₁.frames fs) ∧
        ∀ f', f'.kind = f.kind → st.Idle sys f' →
          st.Under sys (st.Idle sys) m₁.frames (f' :: fs) := by
      generalize m.frames = frames at hunder
      cases hunder with
      | here hk hf =>
          exact ⟨_, _, rfl, hf, fun hnk => absurd hk hnk,
            fun f' hk' hf' => .here (hk'.trans hk) hf'⟩
      | above hf hunder => exact ⟨_, _, rfl, hf, fun _ => hunder, fun f' _ hf' => hunder.above hf'⟩
    obtain ⟨⟨hview', htouch⟩, hnext⟩ := tick_idle ho hf hidle hn
    rcases hnext with ⟨hk, hf', _⟩ | ⟨f', hk, hf', hidle', _, hset⟩ |
      ⟨f', e, he, hclear, hk', hf', hset, htell⟩
    · refine .inl ⟨⟨hf' ▸ hpop hk, hview'.trans hview⟩, fun _ below hact => ?_⟩
      rcases hact with ⟨e, hwins⟩ | hact
      · exact hk (hwins.eq hf).2.1
      · exact htouch below hact
    · refine .inl ⟨⟨hf' ▸ hrest f' hk hidle', hview'.trans hview⟩, fun _ below hact => ?_⟩
      rcases hact with ⟨e, hwins⟩ | hact
      · obtain ⟨_, _, he, hclear⟩ := hwins.eq hf
        rw [hset e he] at hclear
        cases hclear
      · exact htouch below hact
    · refine .inr ⟨fs, e, rfl, ⟨f.saved, he ▸ hf, hclear⟩, ?_, fun below' hact => ?_⟩
      · refine ⟨⟨[], text e⟩, hf' ▸ .here hk' htell, hset, ?_⟩
        rw [hview', hview]
        exact Put.start
      · rcases hact with ⟨e, hwins⟩ | hact
        · exact (hwins.eq hf).1
        · exact (hact.eq hf).1
  · obtain ⟨hunder', hdata⟩ := hunder.delivered ho hn hl
    exact .inl ⟨⟨hunder', by rw [hdata, hview]⟩, fun ht => absurd ht hl⟩

/-- From then on that handler is the only one that touches it, and no other
finds the flag clear. -/
theorem Won.step (ho : Once sys st text) {below : List (Frame L S E)} {e : E}
    (h : st.Won sys text m₁ below e m) (hn : sys.step m l = some m') :
    st.Won sys text m₁ below e m' ∧
      (l = .tick → ∀ below', st.Acts sys m m' below' → below' = below) := by
  obtain ⟨left, hunder, hflag, hput⟩ := h
  have hwins : ∀ {below' : List (Frame L S E)} {e' : E}, ¬st.Wins sys m below' e' := by
    rintro below' e' ⟨_, _, hclear⟩
    rw [hflag] at hclear
    cases hclear
  by_cases hl : l = .tick
  · subst hl
    generalize hframes : m.frames = frames at hunder
    cases hunder with
    | @here f hk htell =>
        have honly : ∀ below', st.Acts sys m m' below' → below' = below := by
          rintro below' (⟨_, hw⟩ | hact)
          · exact absurd hw hwins
          · exact (hact.eq hframes).1
        refine ⟨?_, fun _ => honly⟩
        rcases FatalProof.tick_frame hframes hn with ⟨_, _, hnk, _⟩ | ⟨k, c, sig, hs, rfl⟩
        · exact absurd hk hnk
        · obtain ⟨rfl, hflag', left', htells, hk'⟩ := htell.step hs
          exact ⟨left', .here hk hk', hflag'.trans hflag, hput.tells htells⟩
    | @above f fs hidle hunder =>
        obtain ⟨⟨hview, htouch⟩, hnext⟩ := tick_idle ho hframes hidle hn
        have honly : ∀ below', st.Acts sys m m' below' → below' = below := by
          rintro below' (⟨_, hw⟩ | hact)
          · exact absurd hw hwins
          · exact absurd hact (htouch below')
        refine ⟨⟨left, ?_⟩, fun _ => honly⟩
        rw [hview]
        rcases hnext with ⟨_, hf', hdata⟩ | ⟨f', _, hf', hidle', hflag', _⟩ | ⟨_, _, _, hclear, _⟩
        · exact ⟨hf' ▸ hunder, by rw [hdata, hflag], hput⟩
        · exact ⟨hf' ▸ hunder.above hidle', hflag' hflag, hput⟩
        · rw [hflag] at hclear
          cases hclear
  · obtain ⟨hunder', hdata⟩ := hunder.delivered ho hn hl
    exact ⟨⟨left, hunder', by rw [hdata, hflag], by rw [hdata]; exact hput⟩,
      fun ht => absurd ht hl⟩

end Machine

/-! ## Every run -/

section Runs

variable (sys st) in
/-- Every fatal handler that in the run finds the flag clear, takes the lock
or changes what it guards stands over frames that are a `C`. -/
def Only (m₀ : Cpu L S E P) (ls : List (Label E I)) (C : List (Frame L S E) → Prop) : Prop :=
  ∀ a b below, Takes sys.step (fun _ _ => True) m₀ ls a .tick b → st.Acts sys a b below → C below

variable (sys st text) in
/-- What can be said of a run: no fatal event in it; or none of its handlers
has found the flag clear; or one has. -/
inductive Story (m₀ : Cpu L S E P) (ls : List (Label E I)) (m : Cpu L S E P) : Prop
  | calm (hls : ∀ e, .fatal e ∉ ls) (hk : ∀ f ∈ m.frames, f.kind ≠ .fatal)
      (honly : st.Only sys m₀ ls fun _ => False)
  | struck {ls₀ ls₁ : List (Label E I)} {e₀ : E} {m₁ : Cpu L S E P}
      (hls : ls = ls₀ ++ .fatal e₀ :: ls₁) (hcalm : ∀ e, .fatal e ∉ ls₀)
      (hrun : Run sys.step (fun _ _ => True) m₀ ls₀ m₁) (h : st.Struck sys m₁ m)
      (honly : st.Only sys m₀ ls fun _ => False)
  | won {ls₀ ls₁ : List (Label E I)} {e₀ e : E} {m₁ a₀ b₀ : Cpu L S E P}
      {below : List (Frame L S E)}
      (hls : ls = ls₀ ++ .fatal e₀ :: ls₁) (hcalm : ∀ e, .fatal e ∉ ls₀)
      (hrun : Run sys.step (fun _ _ => True) m₀ ls₀ m₁) (h : st.Won sys text m₁ below e m)
      (hswap : Takes sys.step (fun _ _ => True) m₀ ls a₀ .tick b₀)
      (hwins : st.Wins sys a₀ below e) (honly : st.Only sys m₀ ls (· = below))

variable {m₀ m m' : Cpu L S E P} {ls : List (Label E I)} {l : Label E I}

omit [DecidableEq L] in
theorem not_acts_calm (hk : ∀ f ∈ m.frames, f.kind ≠ .fatal)
    (below : List (Frame L S E)) : ¬st.Acts sys m m' below := by
  rintro (⟨e, saved, hf, _⟩ | ⟨f, hf, hkind, _⟩)
  · exact hk _ (hf ▸ List.mem_cons_self) rfl
  · exact hk f (by simp [hf]) hkind

theorem Only.snoc {C C' : List (Frame L S E) → Prop}
    (hrun : Run sys.step (fun _ _ => True) m₀ ls m) (h : st.Only sys m₀ ls C)
    (hn : sys.step m l = some m') (hC : ∀ below, C below → C' below)
    (hnew : l = .tick → ∀ below, st.Acts sys m m' below → C' below) :
    st.Only sys m₀ (ls ++ [l]) C' := by
  intro a b below htakes hact
  rcases hrun.takes_snoc htakes with htakes | ⟨rfl, rfl, hn'⟩
  · exact hC below (h a b below htakes hact)
  · obtain rfl := Option.some.inj (hn.symm.trans hn')
    exact hnew rfl below hact

theorem Story.step (ho : Once sys st text) (hrun : Run sys.step (fun _ _ => True) m₀ ls m)
    (h : Story sys st text m₀ ls m) (hn : sys.step m l = some m') :
    Story sys st text m₀ (ls ++ [l]) m' := by
  cases h with
  | calm hls hk honly =>
      have honly' := honly.snoc hrun hn (fun _ => id)
        fun _ below hact => not_acts_calm hk below hact
      rcases System.step_cases hn with ⟨rfl, ht⟩ | ⟨i, rfl, _, _, rfl⟩ | ⟨e, rfl, _, rfl⟩
      · exact .calm (by simpa using hls) (FatalProof.tick_calm hk ht) honly'
      · refine .calm (by simpa using hls) (fun f hf => ?_) honly'
        rcases List.mem_cons.mp hf with rfl | hf
        · simp
        · exact hk f hf
      · refine .struck rfl hls hrun ⟨.here rfl (.inl ⟨rfl, e, rfl⟩), ?_⟩ honly'
        unfold Cpu.enter
        dsimp only
        split <;> rfl
  | struck hls hcalm hrun₁ h honly =>
      have hls' := congrArg (· ++ [l]) hls
      simp only [List.append_assoc, List.cons_append] at hls'
      rcases h.step ho hn with ⟨h', hstep⟩ | ⟨below, e, rfl, hwins, h', hstep⟩
      · exact .struck hls' hcalm hrun₁ h' (honly.snoc hrun hn (fun _ => id) hstep)
      · exact .won hls' hcalm hrun₁ h' (hrun.takes_last hn) hwins
          (honly.snoc hrun hn (fun _ => False.elim) fun _ => hstep)
  | won hls hcalm hrun₁ h hswap hwins honly =>
      obtain ⟨h', hstep⟩ := h.step ho hn
      have hls' := congrArg (· ++ [l]) hls
      simp only [List.append_assoc, List.cons_append] at hls'
      exact .won hls' hcalm hrun₁ h' (hswap.snoc l) hwins
        (honly.snoc hrun hn (fun _ => id) hstep)

theorem story (ho : Once sys st text) (h₀ : m₀.frames = [])
    (hrun : Run sys.step (fun _ _ => True) m₀ ls m) : Story sys st text m₀ ls m := by
  induction hrun with
  | nil =>
      refine .calm (by simp) (by simp [h₀]) fun a b below ht => ?_
      obtain ⟨before, after, hls, _⟩ := ht
      simp at hls
  | snoc hrun _ hn ih => exact ih.step ho hrun hn

omit [DecidableEq L] in
/-- There is one way to cut a run at its first fatal event. -/
theorem first_fatal {ls₀ ls₀' ls₁ ls₁' : List (Label E I)} {e e' : E}
    (h : ls₀ ++ .fatal e :: ls₁ = ls₀' ++ .fatal e' :: ls₁') (h₀ : ∀ e, .fatal e ∉ ls₀)
    (h₀' : ∀ e, .fatal e ∉ ls₀') : ls₀ = ls₀' := by
  rcases List.append_eq_append_iff.mp h with ⟨rest, rfl, hrest⟩ | ⟨rest, rfl, hrest⟩
  · cases rest with
    | nil => exact (List.append_nil _).symm
    | cons l rest =>
        obtain ⟨rfl, _⟩ := List.cons.inj hrest
        exact absurd (by simp) (h₀' e)
  · cases rest with
    | nil => exact List.append_nil _
    | cons l rest =>
        obtain ⟨rfl, _⟩ := List.cons.inj hrest
        exact absurd (by simp) (h₀ e')

/-- In every run that a fatal event has struck: at most one handler finds the
flag clear, no other touches what is guarded, and what is there is what was
there when the first event struck and the start of the text of that handler,
of whose next item only some pieces may have been put. -/
theorem one_winner (ho : Once sys st text) (h₀ : m₀.frames = [])
    (hrun : Run sys.step (fun _ _ => True) m₀ ls m) {e' : E} (he' : .fatal e' ∈ ls) :
    ∃ ls₀ e₀ ls₁ m₁ below e said w part, ls = ls₀ ++ .fatal e₀ :: ls₁ ∧ (∀ e, .fatal e ∉ ls₀) ∧
      Run sys.step (fun _ _ => True) m₀ ls₀ m₁ ∧
      st.Only sys m₀ ls (fun below' => below' = below ∧ ∃ a b,
        Takes sys.step (fun _ _ => True) m₀ ls a .tick b ∧ st.Wins sys a below e) ∧
      (said <+: text e ∧ said.foldlM st.put (st.view m₁.cfg.data) = some w ∧
        (part = [] ∨ ∃ x, said ++ [x] <+: text e ∧ part <+: st.pieces w x) ∧
        part.foldlM st.perform w = some (st.view m.cfg.data)) ∧
      (said ≠ [] ∨ part ≠ [] → ∃ a b, Takes sys.step (fun _ _ => True) m₀ ls a .tick b ∧
        st.Wins sys a below e) := by
  cases story ho h₀ hrun with
  | calm hls _ _ => exact absurd he' (hls e')
  | @struck ls₀ ls₁ e₀ m₁ hls hcalm hrun₁ h honly =>
      refine ⟨ls₀, e₀, ls₁, m₁, [], e₀, [], st.view m₁.cfg.data, [], hls, hcalm, hrun₁,
        fun a b below ht hact => (honly a b below ht hact).elim,
        ⟨List.nil_prefix, rfl, .inl rfl, ?_⟩, fun hne => by simp at hne⟩
      rw [h.2]
      rfl
  | @won ls₀ ls₁ e₀ e m₁ a b below hls hcalm hrun₁ h hswap hwins honly =>
      obtain ⟨_, _, _, hput⟩ := h
      obtain ⟨said, w, part, hparts⟩ := hput.parts
      exact ⟨ls₀, e₀, ls₁, m₁, below, e, said, w, part, hls, hcalm, hrun₁,
        fun a' b' below' ht hact => ⟨honly a' b' below' ht hact, a, b, hswap, hwins⟩,
        hparts, fun _ => ⟨a, b, hswap, hwins⟩⟩

end Runs

end Stage

end ProtoOs.Lib
