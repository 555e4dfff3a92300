import PinFile.Command.Action

/-!
# Running actions

What each action answers, and the world that it leaves. An action made of two fails with the
first, in the world that the first left.
-/

namespace PinFile.Command.Action

open Log

variable {α β ε : Type} {w : World}

@[simp] theorem run_pure (a : α) : (pure a : Action α).run.run w = (.ok a, w) := rfl

@[simp] theorem run_throw (e : Failure) : (throw e : Action α).run.run w = (.error e, w) := rfl

@[simp] theorem run_bind (x : Action α) (f : α → Action β) : (x >>= f).run.run w =
    match x.run.run w with
    | (.ok a, w') => (f a).run.run w'
    | (.error e, w') => (.error e, w') := by
  rw [ExceptT.run_bind, StateT.run_bind]
  show (match x.run.run w with | (a, w') => _) = _
  rcases x.run.run w with ⟨_ | a, w'⟩ <;> rfl

@[simp] theorem run_print (text : String) :
    (print text).run.run w = (.ok (), { w with output := w.output ++ text }) := rfl

@[simp] theorem run_noteAll (events : List Event) :
    (noteAll events).run.run w = (.ok (), { w with events := w.events ++ events }) := rfl

@[simp] theorem run_note (level : Level) (target message : String) :
    (note level target message).run.run w =
      (.ok (), { w with events := w.events ++ [⟨level, target, message, []⟩] }) := rfl

@[simp] theorem run_files : files.run.run w = (.ok w.files, w) := rfl

@[simp] theorem run_setFiles (t : FileTree) :
    (setFiles t).run.run w = (.ok (), { w with files := t }) := rfl

@[simp] theorem run_ofExcept_ok (messages : ε → Failure) (a : α) :
    (ofExcept messages (.ok a)).run.run w = (.ok a, w) := rfl

@[simp] theorem run_ofExcept_error (messages : ε → Failure) (e : ε) :
    (ofExcept messages (.error e) : Action α).run.run w = (.error (messages e), w) := rfl

end PinFile.Command.Action
