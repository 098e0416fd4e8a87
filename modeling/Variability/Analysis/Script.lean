import Variability.Failure

/-!
What an analysis does: it tells messages and writes files, one after the other, until it ends or
fails.
-/

set_option autoImplicit false

namespace Variability

inductive Step where
  | tell (message : Message)
  | write (path text : String)
  deriving DecidableEq, Repr

structure Script (α : Type) where
  steps : List Step
  result : Except Failure α

namespace Script

variable {α β : Type}

def bind (s : Script α) (f : α → Script β) : Script β :=
  match s.result with
  | .error e => ⟨s.steps, .error e⟩
  | .ok a => ⟨s.steps ++ (f a).steps, (f a).result⟩

instance : Monad Script where
  pure a := ⟨[], .ok a⟩
  bind := bind

def tell (message : Message) : Script Unit := ⟨[.tell message], .ok ()⟩

def write (path text : String) : Script Unit := ⟨[.write path text], .ok ()⟩

def fail (e : Failure) : Script α := ⟨[], .error e⟩

def ofExcept (r : Except Failure α) : Script α := ⟨[], r⟩

def ofOutcome (o : Outcome α) : Script α := ⟨o.messages.map .tell, o.result⟩

@[simp] theorem pure_bind (a : α) (f : α → Script β) : (pure a : Script α) >>= f = f a := rfl

theorem bind_assoc {γ : Type} (s : Script α) (f : α → Script β) (g : β → Script γ) :
    s >>= f >>= g = s >>= fun a => f a >>= g := by
  obtain ⟨steps, result⟩ := s
  cases result with
  | error e => rfl
  | ok a =>
    change Script.bind (Script.bind ⟨steps, .ok a⟩ f) g =
      Script.bind ⟨steps, .ok a⟩ fun a => Script.bind (f a) g
    cases h : f a with
    | mk more result => cases result <;> simp [Script.bind, h]

end Script
end Variability
