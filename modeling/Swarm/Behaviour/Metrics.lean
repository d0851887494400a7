import Mathlib.Data.List.Pairwise
import Swarm.Lib.Channel

/-!
# Metrics of the behaviour

How long the syncs of this node took to be generated, and how many events
waited for consensus. An `Instant` is a number of clock ticks; the difference of
two is zero if the second is earlier.
-/

namespace Swarm.Behaviour

abbrev Instant := Nat

inductive EventStatus where
  | inProgress (startTime : Instant)
  | notStarted
  deriving DecidableEq

structure PeriodicEvent where
  status : EventStatus
  /-- Start time and duration of the events so far. -/
  eventTimings : List (Instant × Nat)
  deriving DecidableEq

namespace PeriodicEvent

def new : PeriodicEvent := ⟨.notStarted, []⟩

def recordStart (e : PeriodicEvent) (now : Instant) : PeriodicEvent :=
  match e.status with
  | .inProgress _ => e
  | .notStarted => { e with status := .inProgress now }

def recordEnd (e : PeriodicEvent) (now : Instant) : PeriodicEvent :=
  match e.status with
  | .inProgress startTime =>
    ⟨.notStarted, e.eventTimings ++ [(startTime, now - startTime)]⟩
  | .notStarted => e

end PeriodicEvent

structure Gauge where
  values : List (Instant × Nat)
  deriving DecidableEq

def Gauge.record (g : Gauge) (now : Instant) (value : Nat) : Gauge :=
  ⟨g.values ++ [(now, value)]⟩

structure Metrics where
  sync : PeriodicEvent
  consensusQueueSize : Gauge
  deriving DecidableEq

namespace Metrics

def new : Metrics := ⟨.new, ⟨[]⟩⟩

/-- `max_capacity - capacity` of a sender is the number of entries in the queue. -/
def updateQueueSize {limit : Nat} {α : Type} (m : Metrics) (now : Instant)
    (queue : Channel limit α) : Metrics :=
  { m with consensusQueueSize := m.consensusQueueSize.record now (limit - queue.room) }

end Metrics

end Swarm.Behaviour
