import TupleLang.Machine.Step

/-!
# The journal

Compiling and running keep a journal.  An `Entry` has a level, and a reader who asks for a level
sees the entries of that level and of those that give less detail (`Level.shows`).

`Journaled ε α` is a result together with the entries written on the way to it.  A failure keeps
the entries written before it.  The entries never decide the result: that of a sequence is the
sequence of the results (`Journaled.result_bind`).
-/

namespace TupleLang

/-- How much detail an entry gives. -/
inductive Level where
  /-- The stages of a compilation, and the collections and the end of a run. -/
  | debug
  /-- Also what a stage did to each function, and every word printed. -/
  | trace
  deriving DecidableEq

/-- Whether a reader who asks for `level` sees entries of the level `entry`. -/
def Level.shows : (level entry : Level) → Bool
  | .debug, .trace => false
  | _, _ => true

/-- An entry of the journal. -/
structure Entry where
  /-- How much detail the entry gives. -/
  level : Level
  /-- What happened. -/
  text : String
  deriving DecidableEq

/-- The texts that a reader who asks for `level` sees. -/
def Entry.visible (level : Level) (entries : List Entry) : List String :=
  (entries.filter fun entry => level.shows entry.level).map Entry.text

/-- A result and the entries written on the way to it. -/
structure Journaled (ε α : Type) where
  /-- The entries, in order. -/
  entries : List Entry
  /-- The result. -/
  result : Except ε α

namespace Journaled

variable {ε α β : Type}

/-- Continues with a value, or stops at a failure. -/
def andThen (first : Journaled ε α) (next : α → Journaled ε β) : Journaled ε β :=
  match first.result with
  | .error error => ⟨first.entries, .error error⟩
  | .ok value => ⟨first.entries ++ (next value).entries, (next value).result⟩

instance : Monad (Journaled ε) where
  pure value := ⟨[], .ok value⟩
  bind := andThen

instance : MonadLift (Except ε) (Journaled ε) where
  monadLift result := ⟨[], result⟩

/-- Writes an entry for each of the texts. -/
def write (level : Level) (texts : List String) : Journaled ε Unit :=
  ⟨texts.map (Entry.mk level), .ok ()⟩

/-- Writes an entry at the level `debug`. -/
def debug (text : String) : Journaled ε Unit :=
  write .debug [text]

/-- Writes an entry at the level `trace`. -/
def trace (text : String) : Journaled ε Unit :=
  write .trace [text]

@[simp] theorem result_pure (value : α) : (pure value : Journaled ε α).result = .ok value :=
  rfl

/-- The entries never decide the result. -/
@[simp] theorem result_bind (first : Journaled ε α) (next : α → Journaled ε β) :
    (first >>= next).result = first.result >>= fun value => (next value).result := by
  change (andThen first next).result = _
  unfold andThen
  cases first.result <;> rfl

@[simp] theorem result_write (level : Level) (texts : List String) :
    (write level texts : Journaled ε Unit).result = .ok () :=
  rfl

end Journaled

/-- The entries about the events of a run, of which so many collections came before. -/
def Event.entries (collections : Nat) : List Event → List Entry
  | [] => []
  | .printed word :: events =>
    ⟨.trace, Name.printInt ++ "(" ++ word.text ++ ")"⟩ :: entries collections events
  | .collected kept used :: events =>
    ⟨.debug, "collection " ++ toString (collections + 1) ++ " kept " ++ kept.text ++ " of " ++
      used.text ++ " bytes"⟩ :: entries (collections + 1) events

/-- A run with its journal; only a finished run has an entry about its end. -/
def Run.journal (run : Run) : Journaled MachineError Execution :=
  let entries := Event.entries 0 run.events
  match run.result with
  | .error error => ⟨entries, .error error⟩
  | .ok execution =>
    ⟨entries ++ [⟨.debug, "program halted after " ++ toString execution.steps ++ " steps and " ++
      toString execution.collections ++ " collections"⟩], .ok execution⟩

end TupleLang
