import StepRelay.Log.Ring

/-!
# Delivery of log entries

A `Sink` is a tree: its leaves are buffers, named by their slot, and listeners, named by a label; an
inner node hands each entry to all of its parts in order. What the leaves have received is kept in
an `Inbox`.
-/

namespace StepRelay

/-- Where log entries go. -/
inductive Sink where
  | buffer (slot : Nat)
  | listener (label : String)
  | fanout (parts : List Sink)

/-- What has been received: by each buffer, and by the listeners in one sequence. -/
structure Inbox where
  buffers : List StepLogs
  heard : List (String × LogEntry) := []

namespace Inbox

/-- Applies a function to the buffer in a slot, if there is one. -/
def updateBuffer (inbox : Inbox) (slot : Nat) (f : StepLogs → StepLogs) : Inbox :=
  { inbox with buffers := inbox.buffers.modify slot f }

/-- The buffer in a slot; an empty one where there is none. -/
def buffer (inbox : Inbox) (slot : Nat) : StepLogs := inbox.buffers.getD slot { capacity := 0 }

/-- Forgets a step's entries in one buffer. -/
def clear (inbox : Inbox) (slot : Nat) (step : StepId) : Inbox :=
  inbox.updateBuffer slot (·.clear step)

end Inbox

namespace Sink

mutual

/-- Hands an entry to every leaf, in order. -/
def record : Sink → LogEntry → Inbox → Inbox
  | buffer slot, entry, inbox => inbox.updateBuffer slot (·.record entry)
  | listener label, entry, inbox => { inbox with heard := inbox.heard ++ [(label, entry)] }
  | fanout parts, entry, inbox => recordAll parts entry inbox

/-- Hands an entry to each part in turn. -/
def recordAll : List Sink → LogEntry → Inbox → Inbox
  | [], _, inbox => inbox
  | part :: rest, entry, inbox => recordAll rest entry (part.record entry inbox)

end

end Sink

end StepRelay
