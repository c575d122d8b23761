import StepRelay.Cell

/-!
# The logical clock of a run
-/

namespace StepRelay

/-- A counter of writes; all invocations of a run share one. -/
structure Clock where
  now : LogicalTime := 0
  deriving DecidableEq, Inhabited

/-- The clock one write later; its reading is the time of that write. -/
def Clock.tick (clock : Clock) : Clock := ⟨clock.now + 1⟩

@[simp] theorem Clock.now_tick (clock : Clock) : clock.tick.now = clock.now + 1 := rfl

end StepRelay
