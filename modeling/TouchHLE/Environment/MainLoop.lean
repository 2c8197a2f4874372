import TouchHLE.Environment.State
import TouchHLE.Lib.Run

/-! The main loop, `Environment::run` of `touchHLE/src/environment.rs`, in a session with a debugger. What the threads do
    when they are resumed, what the scheduler chooses and what the debugger replies are inputs. -/

namespace TouchHLE.Environment
open Lib

/-- The loop at the start of an iteration, with whether its thread was scheduled before and the debugger's last reply:
    `true` is a step. -/
structure MainLoop where
  stepping : Bool
  remainingTicks : Option Nat
  currentThread : Nat
  scheduled : Bool
  lastReply : Option Bool

/-- What an iteration meets: whether the coroutine returned, the blocks of the threads, what the scheduler chooses when some
    thread is the current one, and what the debugger replies. -/
structure Round where
  returned : Bool
  blockedBy : Nat → ThreadBlock
  next : Nat → Nat
  willStep : Bool

namespace MainLoop

def start : MainLoop := ⟨false, some 100000, 0, true, none⟩

def switchThread (currentThread newThread : Nat) : Except Unit Nat :=
  if newThread = currentThread then .error () else .ok newThread

def asks (l : MainLoop) (r : Round) : Bool := l.stepping || r.blockedBy l.currentThread = .waitingForDebugger

/-- A thread that cannot go on is replaced before the debugger is asked, and only once. -/
def replaceThread (l : MainLoop) (r : Round) : Except Unit Nat :=
  let block := r.blockedBy l.currentThread
  if l.asks r ∧ (r.returned ∨ ¬(block = .notBlocked ∨ block = .waitingForDebugger)) then
    switchThread l.currentThread (r.next l.currentThread)
  else .ok l.currentThread

def round (l : MainLoop) (r : Round) : Except Unit (Unit × MainLoop) := do
  let currentThread ← l.replaceThread r
  let stepping := l.stepping || (l.asks r && r.willStep)
  let lastReply := if l.asks r then some r.willStep else l.lastReply
  if stepping then .ok ((), ⟨true, none, currentThread, false, lastReply⟩)
  else if r.next currentThread ≠ currentThread then .ok ((), ⟨false, some 100000, r.next currentThread, true, lastReply⟩)
  else if r.returned ∧ l.asks r = false then .error ()
  else .ok ((), ⟨false, some 100000, currentThread, true, lastReply⟩)

variable {l t : MainLoop} {r : Round} {u : Unit}

end MainLoop
end TouchHLE.Environment
