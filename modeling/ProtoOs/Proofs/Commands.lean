import Mathlib.Data.List.DropRight
import Mathlib.Data.List.Nodup
import ProtoOs.Proofs.Session

/-!
# Which command a line is

`execute` trims a line, takes its first word and matches it against the
names of the commands; `falha` trims what is left and matches it against
the names of the exceptions. Two lists of names are kept by hand, the table
that `help` shows and the arms of the match. `handlers` is the second one as
a table, and the two agree.

Only spaces and words matter: what is around a line, and how many spaces
stand before an argument of `falha`, is gone before anything looks at it.
-/

namespace ProtoOs.Ref

open ProtoOs.Lib ProtoOs.Lib.Prog

/-! ## Trimming -/

theorem trim_eq (s : List UInt8) :
    trim s = (s.dropWhile isWhitespace).rdropWhile isWhitespace := rfl

section Trim

variable {s w : List UInt8}

theorem trim_append_left {p : List UInt8} (hp : ∀ b ∈ p, isWhitespace b = true) :
    trim (p ++ s) = trim s := by
  rw [trim_eq, List.dropWhile_append_of_pos hp]
  rfl

theorem rdropWhile_append_of_pos {q : List UInt8} (hq : ∀ b ∈ q, isWhitespace b = true) :
    (s ++ q).rdropWhile isWhitespace = s.rdropWhile isWhitespace := by
  unfold List.rdropWhile
  rw [List.reverse_append, List.dropWhile_append_of_pos fun b hb => hq b (List.mem_reverse.mp hb)]

theorem trim_append_right {q : List UInt8} (hq : ∀ b ∈ q, isWhitespace b = true) :
    trim (s ++ q) = trim s := by
  rw [trim_eq, trim_eq, List.dropWhile_append]
  split <;> rename_i hs
  · rw [List.isEmpty_iff] at hs
    rw [hs, List.dropWhile_eq_nil_iff.mpr hq]
  · rw [rdropWhile_append_of_pos hq]

theorem trim_rdropWhile : trim (s.rdropWhile isWhitespace) = trim s := by
  have hsplit := List.rdropWhile_append_rtakeWhile (p := isWhitespace) (l := s)
  have hright := trim_append_right (s := s.rdropWhile isWhitespace)
    (q := s.rtakeWhile isWhitespace) fun b hb => List.mem_rtakeWhile_imp hb
  rw [hsplit] at hright
  exact hright.symm

/-- Trimming on the right stops at a word. -/
theorem rdropWhile_word (hword : ∀ b ∈ w, isWhitespace b = false) :
    (w ++ s).rdropWhile isWhitespace = w ++ s.rdropWhile isWhitespace := by
  unfold List.rdropWhile
  rw [List.reverse_append, List.dropWhile_append]
  split <;> rename_i hs
  · rw [List.isEmpty_iff] at hs
    rw [hs, List.reverse_nil, List.append_nil]
    have hself : w.rdropWhile isWhitespace = w := by
      rw [List.rdropWhile_eq_self_iff]
      intro hne
      rw [hword _ (List.getLast_mem hne)]
      decide
    exact hself
  · rw [List.reverse_append, List.reverse_reverse]

theorem dropWhile_word (hw : w ≠ []) (hword : ∀ b ∈ w, isWhitespace b = false) :
    (w ++ s).dropWhile isWhitespace = w ++ s := by
  obtain ⟨b, w, rfl⟩ := List.exists_cons_of_ne_nil hw
  rw [List.cons_append, List.dropWhile_cons, hword b (by simp)]
  rfl

/-- The only whitespace a typed line can hold. -/
theorem Printable.isWhitespace_iff {b : UInt8} (hb : Printable b) :
    isWhitespace b = true ↔ b = 0x20 := by
  constructor
  · intro hws
    simp only [isWhitespace, Bool.or_eq_true, decide_eq_true_eq, Bool.and_eq_true] at hws
    rcases hws with heq | ⟨_, hle⟩
    · exact heq
    · have hlow := hb.1
      rw [UInt8.le_iff_toNat_le] at hle hlow
      have hlow' : 0x20 ≤ b.toNat := hlow
      have hle' : b.toNat ≤ 0x0D := hle
      omega
  · rintro rfl
    decide

/-- A line of printable bytes trims to nothing if it is spaces only. -/
theorem trim_eq_nil_iff (hs : ∀ b ∈ s, Printable b) : trim s = [] ↔ ∀ b ∈ s, b = 0x20 := by
  have hspace : ∀ b ∈ s, (isWhitespace b = true ↔ b = 0x20) :=
    fun b hb => (hs b hb).isWhitespace_iff
  constructor
  · intro htrim b hb
    have hall : ∀ b ∈ s.dropWhile isWhitespace, isWhitespace b = true :=
      List.rdropWhile_eq_nil_iff.mp htrim
    have hsplit := List.takeWhile_append_dropWhile (p := isWhitespace) (l := s)
    rw [← hsplit] at hb
    refine (hspace b (hsplit ▸ hb)).mp ?_
    rcases List.mem_append.mp hb with hb | hb
    · exact List.mem_takeWhile_imp hb
    · exact hall b hb
  · intro hall
    rw [trim_eq, List.dropWhile_eq_nil_iff.mpr fun b hb => (hspace b hb).mpr (hall b hb)]
    rfl

end Trim

/-! ## The first word -/

/-- The first word is the longest start of the line without a space; the
rest is what follows the first space. -/
theorem nameAndRest_eq (line : List UInt8) :
    nameAndRest line = (line.takeWhile (· ≠ 0x20), (line.dropWhile (· ≠ 0x20)).tail) := by
  have hsplit : ∀ line : List UInt8, splitOnce line =
      if 0x20 ∈ line then
        some (line.takeWhile (· ≠ 0x20), (line.dropWhile (· ≠ 0x20)).tail)
      else none := by
    intro line
    induction line with
    | nil => rfl
    | cons b bs ih =>
        rw [splitOnce]
        by_cases hb : b = 0x20
        · simp [hb]
        · rw [if_neg hb, ih]
          by_cases hmem : 0x20 ∈ bs
          · simp [hb, hmem]
          · simp [hmem, Ne.symm hb]
  unfold nameAndRest
  rw [hsplit]
  split <;> rename_i heq
  · split at heq
    · obtain ⟨rfl, rfl⟩ := Prod.mk.inj (Option.some.inj heq)
      rfl
    · cases heq
  · split at heq
    · cases heq
    · rename_i hmem
      have hall : ∀ b ∈ line, decide (b ≠ 0x20) = true := by
        intro b hb
        simp only [decide_eq_true_eq]
        rintro rfl
        exact hmem hb
      rw [List.takeWhile_eq_self_iff.mpr hall, List.dropWhile_eq_nil_iff.mpr hall]
      rfl

/-- A word and a space in front of anything. -/
theorem nameAndRest_word {w s : List UInt8} (hw : w ≠ [])
    (hword : ∀ b ∈ w, isWhitespace b = false) :
    nameAndRest (trim (w ++ 0x20 :: s)) = (w, s.rdropWhile isWhitespace) := by
  have hspace : ∀ b ∈ w, decide (b ≠ 0x20) = true := by
    intro b hb
    simp only [decide_eq_true_eq]
    rintro rfl
    exact absurd (hword 0x20 hb) (by decide)
  rw [trim_eq, dropWhile_word hw hword, rdropWhile_word hword, nameAndRest_eq]
  have htail : (0x20 :: s).rdropWhile isWhitespace =
      if s.rdropWhile isWhitespace = [] then [] else 0x20 :: s.rdropWhile isWhitespace := by
    by_cases hs : s.rdropWhile isWhitespace = []
    · rw [if_pos hs, List.rdropWhile_eq_nil_iff]
      intro b hb
      rcases List.mem_cons.mp hb with rfl | hb
      · decide
      · exact List.rdropWhile_eq_nil_iff.mp hs b hb
    · rw [if_neg hs]
      unfold List.rdropWhile at hs ⊢
      rw [List.reverse_cons, List.dropWhile_append, if_neg, List.reverse_append]
      · rfl
      · rw [List.isEmpty_iff]
        exact fun hnil => hs (by rw [hnil]; rfl)
  rw [htail, List.takeWhile_append_of_pos hspace, List.dropWhile_append_of_pos hspace]
  split <;> rename_i hs
  · rw [hs]
    simp
  · simp

/-! ## Commands and their names -/

section Commands

variable {H : Type} (pf : Platform H)

/-- The arms of the match in `execute`. -/
def handlers : List (List UInt8 × (List UInt8 → Code H Unit)) :=
  [ (bytes "help", fun _ => cmdHelp),
    (bytes "clear", fun _ => clearScreen),
    (bytes "echo", cmdEcho),
    (bytes "sobre", fun _ => cmdSobre),
    (bytes "panic", fun _ => cmdPanic),
    (bytes "mem", fun _ => cmdMem pf),
    (bytes "falha", cmdFalha pf) ]

/-- The table `help` shows names the same commands. -/
theorem handlers_names : (handlers pf).map Prod.fst = commands.map Prod.fst := rfl

theorem commands_nodup : (commands.map Prod.fst).Nodup := by decide +kernel

def unknownCommand (name : List UInt8) : List UInt8 :=
  bytes "comando desconhecido: " ++ name ++ bytes " (digite help)"

/-- The arm that was found, or the last one. -/
def arm (name rest : List UInt8) : Option (List UInt8 → Code H Unit) → Code H Unit
  | some handler => handler rest
  | none => println (unknownCommand name)

theorem arm_lookup_cons {name rest key : List UInt8} {handler : List UInt8 → Code H Unit}
    {table : List (List UInt8 × (List UInt8 → Code H Unit))} :
    arm name rest (((key, handler) :: table).lookup name) =
      if name = key then handler rest else arm name rest (table.lookup name) := by
  rw [List.lookup_cons]
  by_cases h : name = key
  · simp [h, arm]
  · rw [if_neg h, beq_false_of_ne h]

theorem dispatch_eq (name rest : List UInt8) :
    dispatch pf name rest = arm name rest ((handlers pf).lookup name) := by
  unfold handlers
  rw [arm_lookup_cons, arm_lookup_cons, arm_lookup_cons, arm_lookup_cons, arm_lookup_cons,
    arm_lookup_cons, arm_lookup_cons]
  rfl

theorem dispatch_unknown {name : List UInt8} (rest : List UInt8)
    (h : name ∉ commands.map Prod.fst) :
    dispatch pf name rest = println (unknownCommand name) := by
  rw [← handlers_names pf] at h
  rw [dispatch_eq, List.lookup_eq_none_iff.mpr]
  · rfl
  · intro entry hmem
    rw [bne_iff_ne]
    rintro rfl
    exact h (List.mem_map_of_mem hmem)

theorem dispatch_known {name : List UInt8} (rest : List UInt8)
    (h : name ∈ commands.map Prod.fst) :
    ∃ handler, (name, handler) ∈ handlers pf ∧ dispatch pf name rest = handler rest := by
  rw [← handlers_names pf] at h
  rw [dispatch_eq]
  cases hlookup : (handlers pf).lookup name with
  | none =>
      obtain ⟨entry, hmem, rfl⟩ := List.mem_map.mp h
      exact absurd rfl (bne_iff_ne.mp (List.lookup_eq_none_iff.mp hlookup entry hmem))
  | some handler =>
      obtain ⟨before, after, hsplit, _⟩ := List.lookup_eq_some_iff.mp hlookup
      exact ⟨handler, by rw [hsplit]; simp, rfl⟩

/-- No two handlers have one name. -/
theorem handlers_unique {name : List UInt8} {f f' : List UInt8 → Code H Unit}
    (h : (name, f) ∈ handlers pf) (h' : (name, f') ∈ handlers pf) : f = f' := by
  have hnodup : ((handlers pf).map Prod.fst).Nodup := by
    rw [handlers_names]
    exact commands_nodup
  have hsame := List.inj_on_of_nodup_map hnodup h h' rfl
  exact (Prod.mk.inj hsame).2

/-! ## What a line does -/

/-- The record of a call; nothing in the kernel reads it. -/
def called (line : List UInt8) : Code H Unit :=
  Prog.modify fun g => { g with executed := g.executed ++ [line] }

/-- What `execute` does with a line besides. -/
def command (line : List UInt8) : Code H Unit :=
  if trim line = [] then ret ()
  else dispatch pf (nameAndRest (trim line)).1 (nameAndRest (trim line)).2

theorem execute_eq (line : List UInt8) :
    execute pf line = (called line).bind fun _ => command pf line := rfl

theorem whitespace_replicate {n : Nat} : ∀ b ∈ List.replicate n 0x20, isWhitespace b = true := by
  intro b hb
  rw [List.eq_of_mem_replicate hb]
  decide

theorem trim_padded (l : List UInt8) (i j : Nat) :
    trim (List.replicate i 0x20 ++ l ++ List.replicate j 0x20) = trim l := by
  rw [trim_append_right whitespace_replicate, trim_append_left whitespace_replicate]

theorem command_padded (l : List UInt8) (i j : Nat) :
    command pf (List.replicate i 0x20 ++ l ++ List.replicate j 0x20) = command pf l := by
  rw [command, trim_padded]
  rfl

/-- The names are words, so the first space ends them. -/
theorem commands_words : ∀ name ∈ commands.map Prod.fst,
    name ≠ [] ∧ ∀ b ∈ name, isWhitespace b = false := by decide +kernel

/-- A line that starts with a name and a space hands the rest to the handler,
all but the spaces it ends in. -/
theorem command_named {name : List UInt8} {handler : List UInt8 → Code H Unit}
    (h : (name, handler) ∈ handlers pf) (s : List UInt8) :
    command pf (name ++ 0x20 :: s) = handler (s.rdropWhile isWhitespace) := by
  have hname : name ∈ commands.map Prod.fst := by
    rw [← handlers_names pf]
    exact List.mem_map_of_mem h
  obtain ⟨hne, hword⟩ := commands_words name hname
  have hparse := nameAndRest_word (s := s) hne hword
  have htrim : trim (name ++ 0x20 :: s) ≠ [] := by
    intro hnil
    rw [hnil] at hparse
    exact hne (Prod.mk.inj hparse).1.symm
  obtain ⟨handler', hmem, hdispatch⟩ := dispatch_known pf (s.rdropWhile isWhitespace) hname
  rw [command, if_neg htrim, hparse, hdispatch, handlers_unique pf hmem h]

/-! ## Exceptions on demand -/

/-- Left alone, the code comes to an instruction that raises an exception. -/
def Raises {α : Type} : Code H α → Cfg LockId (Globals H) → Prop
  | .ret _, _ => False
  | .act f k, c => Raises (k c.data) (c.update f)
  | .lock l k, c => c.held l = false ∧ Raises k (c.acquire l)
  | .unlock l k, c => Raises k (c.release l)
  | .readIf k, c => Raises (k c.ifl) c.next
  | .cli k, c => Raises k c.closeIf
  | .sti k, c => Raises k c.openIf
  | .hlt _, _ => False
  | .int3 _, _ => True
  | .fault (.exception _ _), _ => True
  | .fault (.panic _), _ => False
  | .haltLoop, _ => False

/-- Code that neither traps nor faults raises nothing. -/
theorem not_raises_of_safe {α : Type} {opened : Bool} {A : LockId → Prop}
    {R : (LockId → Bool) → Bool → Prop} {p : Code H α} :
    ∀ {c : Cfg LockId (Globals H)},
      p.Safe (fun _ => False) (fun _ => False) opened A R c.held c.ifl → ¬Raises p c := by
  induction p with
  | ret a => intro c _ h; exact h
  | act f k ih => intro c hs h; exact ih c.data (c := c.update f) (hs c.data) h
  | lock l k ih => intro c hs h; exact ih (c := c.acquire l) hs.2 h.2
  | unlock l k ih => intro c hs h; exact ih (c := c.release l) hs.2 h
  | readIf k ih => intro c hs h; exact ih c.ifl (c := c.next) hs h
  | cli k ih => intro c hs h; exact ih (c := c.closeIf) hs h
  | sti k ih => intro c hs h; exact ih (c := c.openIf) hs.2 h
  | hlt k ih => intro c hs h; exact h
  | int3 k ih => intro c hs h; exact hs.1
  | fault e => intro c hs h; exact hs
  | haltLoop => intro c hs h; exact h

/-- With fewer locks held it comes there just the same. -/
theorem Raises.unlocked {α : Type} {p : Code H α} :
    ∀ {c c' : Cfg LockId (Globals H)}, Raises p c → c'.data = c.data → c'.ifl = c.ifl →
      (∀ l, c.held l = false → c'.held l = false) → Raises p c' := by
  induction p with
  | ret a => exact fun h _ _ _ => h
  | act f k ih =>
      intro c c' h hd hi hh
      show Raises (k c'.data) (c'.update f)
      rw [hd]
      exact ih _ h (congrArg f hd) hi hh
  | lock l k ih =>
      intro c c' h hd hi hh
      refine ⟨hh l h.1, ih h.2 hd hi fun l' hl' => ?_⟩
      by_cases heq : l' = l
      · subst heq
        simp [Cfg.acquire] at hl'
      · simp only [Cfg.acquire, Function.update_of_ne heq] at hl' ⊢
        exact hh l' hl'
  | unlock l k ih =>
      intro c c' h hd hi hh
      refine @ih (c.release l) (c'.release l) h hd hi fun l' hl' => ?_
      by_cases heq : l' = l
      · subst heq
        simp [Cfg.release]
      · simp only [Cfg.release, Function.update_of_ne heq] at hl' ⊢
        exact hh l' hl'
  | readIf k ih =>
      intro c c' h hd hi hh
      show Raises (k c'.ifl) c'.next
      rw [hi]
      exact ih _ (c := c.next) h hd hi hh
  | cli k ih => exact fun h hd _ hh => ih (c := Cfg.closeIf _) h hd rfl hh
  | sti k ih => exact fun h hd _ hh => ih (c := Cfg.openIf _) h hd rfl hh
  | hlt k ih => exact fun h _ _ _ => h
  | int3 k ih => exact fun h _ _ _ => h
  | fault e => exact fun h _ _ _ => by cases e <;> exact h
  | haltLoop => exact fun h _ _ _ => h

theorem print_not_raises (text : List UInt8) (c : Cfg LockId (Globals H)) :
    ¬Raises (print text) c := by
  intro h
  have hneutral : Neutral (fun _ => False) (fun _ => False) true AnyLock
      (print text : Code H Unit) :=
    withWriter_neutral (writeText_neutral text) anyLock_writer
  exact not_raises_of_safe (c := { c with held := noLock })
    (hneutral noLock c.ifl (fun _ => rfl) fun _ _ => rfl) (h.unlocked rfl rfl fun _ _ => rfl)

def falhaTypes : List (List UInt8) :=
  [bytes "pagina", bytes "pilha", bytes "opcode", bytes "protecao", bytes "breakpoint"]

theorem cmdFalha_raises_iff (tipo : List UInt8) (c : Cfg LockId (Globals H)) :
    Raises (cmdFalha pf tipo) c ↔ trim tipo ∈ falhaTypes := by
  unfold cmdFalha falhaTypes
  simp only [List.mem_cons, List.not_mem_nil, or_false]
  split <;> rename_i h
  · exact ⟨fun _ => .inl h, fun _ => trivial⟩
  · split <;> rename_i h'
    · exact ⟨fun _ => .inr (.inl h'), fun _ => trivial⟩
    · split <;> rename_i h''
      · exact ⟨fun _ => .inr (.inr (.inl h'')), fun _ => trivial⟩
      · split <;> rename_i h₃
        · exact ⟨fun _ => .inr (.inr (.inr (.inl h₃))), fun _ => trivial⟩
        · split <;> rename_i h₄
          · exact ⟨fun _ => .inr (.inr (.inr (.inr h₄))), fun _ => trivial⟩
          · refine ⟨fun hr => absurd hr (print_not_raises _ c), ?_⟩
            rintro (hm | hm | hm | hm | hm)
            · exact absurd hm h
            · exact absurd hm h'
            · exact absurd hm h''
            · exact absurd hm h₃
            · exact absurd hm h₄

/-- The grammar of the prompt. Spaces around a line do not matter. A line of
spaces does nothing. Any other line, with `w` its first word, runs the one
handler named `w` if the table of `help` names `w`, and the message that it
is unknown if not. And `falha` raises an exception exactly if what is left
of its argument without the spaces around it is one of the five types. -/
theorem commands_follow_grammar {l : List UInt8} (hl : ∀ b ∈ l, Printable b) :
    (∀ i j, execute pf (List.replicate i 0x20 ++ l ++ List.replicate j 0x20) =
      (called (List.replicate i 0x20 ++ l ++ List.replicate j 0x20)).bind
        fun _ => command pf l) ∧
    ((∀ b ∈ l, b = 0x20) → execute pf l = (called l).bind fun _ => ret ()) ∧
    ((∃ b ∈ l, b ≠ 0x20) → ∃ w rest,
      w = (trim l).takeWhile (· ≠ 0x20) ∧
      rest = ((trim l).dropWhile (· ≠ 0x20)).tail ∧
      (w ∈ commands.map Prod.fst → ∃ handler, (w, handler) ∈ handlers pf ∧
        (∀ handler', (w, handler') ∈ handlers pf → handler' = handler) ∧
        execute pf l = (called l).bind fun _ => handler rest) ∧
      (w ∉ commands.map Prod.fst → (∀ handler, (w, handler) ∉ handlers pf) ∧
        execute pf l = (called l).bind fun _ => println (unknownCommand w))) ∧
    ∀ i j c, Raises (execute pf (bytes "falha" ++
        0x20 :: (List.replicate i 0x20 ++ l ++ List.replicate j 0x20))) c ↔
      trim l ∈ falhaTypes := by
  refine ⟨fun i j => ?_, fun hall => ?_, ?_, fun i j c => ?_⟩
  · rw [execute_eq, command_padded]
  · rw [execute_eq, command, if_pos ((trim_eq_nil_iff hl).mpr hall)]
  · rintro ⟨b, hb, hne⟩
    have htrim : trim l ≠ [] := fun hnil => hne ((trim_eq_nil_iff hl).mp hnil b hb)
    have hcommand : command pf l = dispatch pf ((trim l).takeWhile (· ≠ 0x20))
        ((trim l).dropWhile (· ≠ 0x20)).tail := by
      rw [command, if_neg htrim, nameAndRest_eq]
    refine ⟨_, _, rfl, rfl, fun hmem => ?_, fun hmem => ⟨fun handler hin => ?_, ?_⟩⟩
    · obtain ⟨handler, hin, hdispatch⟩ := dispatch_known pf _ hmem
      refine ⟨handler, hin, fun handler' hin' => handlers_unique pf hin' hin, ?_⟩
      rw [execute_eq, hcommand, hdispatch]
    · rw [← handlers_names pf] at hmem
      exact hmem (List.mem_map_of_mem hin)
    · rw [execute_eq, hcommand, dispatch_unknown pf _ hmem]
  · have hfalha : (bytes "falha", cmdFalha pf) ∈ handlers pf := by simp [handlers]
    rw [execute_eq, command_named pf hfalha]
    show Raises (cmdFalha pf _) _ ↔ _
    rw [cmdFalha_raises_iff, trim_rdropWhile, trim_padded]

end Commands

theorem commands_follow_grammar_opcode :
    Raises (execute smallPlatform (bytes "falha" ++
        0x20 :: (List.replicate 2 0x20 ++ bytes "opcode" ++ List.replicate 3 0x20)))
      ⟨(smallStart []).cfg.data.globals, noLock, false, false⟩ := by
  have hl : ∀ b ∈ bytes "opcode", Printable b := by decide +kernel
  have htype : trim (bytes "opcode") ∈ falhaTypes := by decide +kernel
  exact ((commands_follow_grammar smallPlatform hl).2.2.2 2 3 _).mpr htype

end ProtoOs.Ref
