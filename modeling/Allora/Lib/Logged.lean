import Allora.Lib.Outcome

/-!
# `Logged` — calls that show what they do

A call of the modelled code, together with the events that an onlooker has seen of it. The code
shows an event where it does what the event stands for (`emit`), so the events are in the order of
the code. A call that panics or does not return keeps those it has shown before.
-/

set_option autoImplicit false

namespace Allora

/-- The events, and how the call ends. -/
structure Logged (ε α : Type) where
  log : List ε
  result : Outcome α

namespace Logged

variable {ε α β : Type}

/-- Show an event. -/
def emit (e : ε) : Logged ε Unit := ⟨[e], .ok ()⟩

/-- A call that shows nothing. -/
def quiet (x : Outcome α) : Logged ε α := ⟨[], x⟩

/-- What follows is seen after what came before, if it is reached. -/
protected def bind (x : Logged ε α) (f : α → Logged ε β) : Logged ε β :=
  match x.result with
  | .ok a => ⟨x.log ++ (f a).log, (f a).result⟩
  | .panic msg => ⟨x.log, .panic msg⟩
  | .timeout => ⟨x.log, .timeout⟩

instance : Monad (Logged ε) where
  pure a := quiet (.ok a)
  bind := Logged.bind

@[simp] theorem pure_eq (a : α) : (pure a : Logged ε α) = ⟨[], .ok a⟩ := rfl

@[simp] theorem quiet_eq (x : Outcome α) : (quiet x : Logged ε α) = ⟨[], x⟩ := rfl

@[simp] theorem emit_bind (e : ε) (f : Unit → Logged ε β) :
    (emit e >>= f) = ⟨e :: (f ()).log, (f ()).result⟩ := rfl

@[simp] theorem ok_bind (es : List ε) (a : α) (f : α → Logged ε β) :
    ((⟨es, .ok a⟩ : Logged ε α) >>= f) = ⟨es ++ (f a).log, (f a).result⟩ := rfl

@[simp] theorem panic_bind (es : List ε) (msg : String) (f : α → Logged ε β) :
    ((⟨es, .panic msg⟩ : Logged ε α) >>= f) = ⟨es, .panic msg⟩ := rfl

@[simp] theorem timeout_bind (es : List ε) (f : α → Logged ε β) :
    ((⟨es, .timeout⟩ : Logged ε α) >>= f) = ⟨es, .timeout⟩ := rfl

end Logged
end Allora
