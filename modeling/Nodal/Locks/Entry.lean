import Nodal.Foundation.Solo
import Nodal.Locks.Hold

/-!
# Entering a home

`runtime/lock.rs`: `enter` takes the write on a unit, refreshes it, hands it over or refuses. It
reads the row, may read the process table for the session the row records, and writes with one of
two statements. Nothing holds between its statements, so an entry is an attempt over the effects
below and several of them are interleaved by the machine.

A hold is moved from a previous holder on three grounds, `Moved`, and the move is written on the
unit's log, unless the holder it came to is the one it was already with.
-/

set_option autoImplicit false

namespace Nodal.Locks

open Nodal.Foundation Nodal.Foundation.Attempt

/-! ### What an entry may do -/

/-- What one reading of the process table says about an identifier. -/
inductive Presence
  | gone
  | running (startedAt : Option Timestamp)
  deriving DecidableEq, Repr

/-- The statements and the readings of an entry. -/
inductive Effect
  | get (unit : UnitId)
  | take (lock : Lock) (now : Timestamp) (idleDeadline : ℤ)
  | handOver (lock : Lock)
  | sessionIsLive (sid : ℕ)
  | presences (pids : List ℕ)
  | note (unit : UnitId) (line : Handoff)

/-- What an effect is answered. -/
@[reducible] def Effect.Answer : Effect → Type
  | get _ => Option Lock
  | take _ _ _ => Bool
  | handOver _ | note _ _ => Unit
  | sessionIsLive _ => Option Bool
  | presences _ => Option (List (ℕ × Presence))

/-- What the outside decides about an effect: what a reading of the process table finds, `none` where
it could not be taken. -/
@[reducible] def Effect.Choice : Effect → Type
  | sessionIsLive _ => Option Bool
  | presences _ => Option (List (ℕ × Presence))
  | _ => Unit

/-- What one effect answers and does. -/
def perform : (effect : Effect) → effect.Choice → Registry → effect.Answer × Registry
  | .get unit, _, r => (r.locks unit, r)
  | .take lock now idleDeadline, _, r => r.take lock now idleDeadline
  | .handOver lock, _, r => ((), r.handOver lock)
  | .sessionIsLive _, found, r => (found, r)
  | .presences _, seen, r => (seen, r)
  | .note unit line, _, r => ((), r.note unit line)

/-! ### Who enters -/

/-- A unit, by what an entry reads of it. -/
structure WorkUnit where
  id : UnitId
  slug : String
  deriving DecidableEq, Repr

/-- What entering a home did to its lock. -/
inductive Entered
  | took
  | refreshed
  | takenOver
  deriving DecidableEq, Repr

/-- Who is entering a home, and how. -/
structure Entry where
  actor : Actor
  host : HostName
  session : Option ℕ
  process : Holding
  take : Bool
  now : Timestamp
  idleHours : UInt32
  deriving DecidableEq

/-- How far ahead a fresh hold sets its absolute expiry, in idle windows. -/
def absoluteWindows : ℕ := 2

/-- How far ahead a fresh hold's absolute expiry sits. -/
def absoluteExpiry (now : Timestamp) (idleHours : UInt32) : Timestamp :=
  let ahead := saturate ((min (idleHours.toNat * absoluteWindows) (2 ^ 32 - 1) : ℕ) * 3600)
  (Timestamp.fromUnixSeconds (saturate (now.unixSeconds + ahead))).getD now

/-- The hold an entry would write on a unit. -/
def Entry.claim (entry : Entry) (unit : UnitId) : Lock where
  unitId := unit
  host := entry.host
  actor := some entry.actor
  process := some entry.process
  session := entry.session
  takenAt := entry.now
  refreshedAt := entry.now
  expiresAt := absoluteExpiry entry.now entry.idleHours

/-- What the record says about the lineage a re-entry comes from. -/
inductive Lineage
  | same
  | second
  | gone
  | unreadable
  deriving DecidableEq, Repr

/-- Which of the four a holder, this process and a reading of the table make. -/
def lineage (holder : Lock) (here : Option ℕ) (sessionHoldsAProcess : Option Bool) : Lineage :=
  if holder.wasTakenFrom here then .same
  else
    match holder.session, here, sessionHoldsAProcess with
    | some _, some _, some true => .second
    | some _, some _, some false => .gone
    | _, _, _ => .unreadable

section Lineages

variable {holder : Lock} {here : Option ℕ} {sid asking : ℕ}

theorem lineage_same {reading : Option Bool} (h : holder.wasTakenFrom here = true) :
    lineage holder here reading = .same := if_pos h

theorem lineage_unstated {reading : Option Bool} (h : holder.session = none) :
    lineage holder here reading = .unreadable := by
  simp [lineage, Lock.wasTakenFrom, h]

theorem lineage_found (found : Bool) (hother : ¬holder.wasTakenFrom here = true)
    (hsid : holder.session = some sid) (hhere : here = some asking) :
    lineage holder here (some found) = if found then .second else .gone := by
  subst hhere
  cases found <;> simp [lineage, hother, hsid]

end Lineages

/-! ### What is said -/

/-- Why an entry is refused. -/
inductive Error
  | unitLocked (slug actor host since hold : String)
  | storeMissingRow (table id : String)
  deriving DecidableEq, Repr

/-- The text of an error. -/
def Error.display : Error → String
  | unitLocked slug actor host since hold =>
    slug.quote ++ " is held by " ++ actor ++ " on " ++ host ++ " since " ++ since ++ "." ++ hold ++
      " --take to take it. The lock is advisory: it refuses the write verbs and stops nothing else"
  | storeMissingRow table id => table ++ " row " ++ id ++ " is referenced but is not there"

/-- How long there is between two instants, as a length. -/
def span (now since : Timestamp) : String :=
  let seconds := now.unixSeconds - since.unixSeconds
  if seconds < 60 then "now"
  else if seconds < 3600 then toString (seconds / 60) ++ " min"
  else if seconds < 86400 then toString (seconds / 3600) ++ " h"
  else toString (seconds / 86400) ++ " d"

/-- Why a hold moved away from the actor who had it. -/
inductive Moved
  | provenDead
  | leaseExpired
  | asked
  deriving DecidableEq, Repr

/-- The clause the log records. -/
def Moved.why : Moved → String
  | provenDead => "the previous holder was proven gone from this host"
  | leaseExpired => "the previous holder's lease had expired"
  | asked => "asked for"

/-- Why liveness could not be read for a hold. -/
inductive Unknowable
  | anotherHost
  | noPid
  | noProcessTable
  | undated
  deriving DecidableEq, Repr

/-- What became of the process that took a hold. -/
inductive HolderState
  | live
  | gone
  | unknown (why : Unknowable)
  deriving DecidableEq, Repr

/-- How far apart two readings of one process's start may be. -/
def pinSlackSeconds : ℤ := 1

/-- Whether two readings of a start instant are readings of one process. -/
def isTheSameStart (found recorded : Timestamp) : Bool :=
  (saturate (found.unixSeconds - recorded.unixSeconds)).natAbs ≤ pinSlackSeconds

/-- What a reading of the table says became of the process that took a hold. -/
def liveness (lock : Lock) (here : HostName) (seen : Option (List (ℕ × Presence))) : HolderState :=
  if lock.host ≠ here then .unknown .anotherHost
  else
    match lock.process, seen with
    | none, _ => .unknown .noPid
    | some _, none => .unknown .noProcessTable
    | some held, some seen =>
      match (seen.lookup held.pid).getD .gone, held.startedAt with
      | .gone, _ => .gone
      | .running (some found), some recorded =>
        if isTheSameStart found recorded then .live else .gone
      | .running _, _ => .unknown .undated

/-- What is entering a home. -/
abbrev Enter : Type → Type := Attempt Effect Effect.Answer Error

/-- What is said of the process that took a hold, where it is gone. -/
def goneLine (held : Lock) : HolderState → String
  | .gone =>
    let named := match held.process with
      | some process => "pid " ++ toString process.pid
      | none => "the process"
    " " ++ named ++ " that took it is gone from this host; nodal show says whether " ++
      "anything of that actor is still in the home."
  | .live | .unknown _ => ""

/-- What the refusal adds about the process that took the hold, or nothing. -/
def holdLine (held : Lock) (entry : Entry) : Enter String :=
  if held.IsHeldBy entry.actor entry.host then
    let named := match held.session with
      | some sid => " session " ++ toString sid
      | none => ""
    pure (" That is a second process of the same name: the hold belongs to" ++ named ++
      ", and this command is in another one.")
  else do
    let seen ← call (Effect.presences held.pid.toList)
    pure (goneLine held (liveness held entry.host seen))

/-- Refuse, naming who holds the unit and how to take it. -/
def refuse {α : Type} (unit : WorkUnit) (held : Lock) (entry : Entry) : Enter α := do
  let hold ← holdLine held entry
  let actor := match held.actor with
    | some actor => actor.name
    | none => ""
  throw (.unitLocked unit.slug actor held.host (span entry.now held.takenAt) hold)

/-- Whether an entry takes the hold from somebody else. An unstated lineage moves nothing. -/
def movesTheHold (previous : Lock) (entry : Entry) : Bool :=
  if previous.IsHeldBy entry.actor entry.host then
    match previous.session, entry.session with
    | some recorded, some here => recorded != here
    | _, _ => false
  else true

/-- The line a hand-off is recorded with. -/
def handOffLine (previous : Lock) (entry : Entry) (why : Moved) : Handoff :=
  let was := match previous.actor with
    | some actor => actor.name
    | none => ""
  { actor := entry.actor
    body := "write lock taken from " ++ was ++ " by " ++ entry.actor.name ++ ": " ++ why.why
    refs := [("from", was), ("to", entry.actor.name), ("host", entry.host), ("why", why.why)] }

/-! ### Entering -/

/-- Write the hand-off on the unit's log, where the hold moved. -/
def recordHandOff (unit : UnitId) (previous : Lock) (entry : Entry) (why : Moved) : Enter Unit :=
  if movesTheHold previous entry then call (Effect.note unit (handOffLine previous entry why))
  else pure ()

/-- Move the hold here and write the move on the unit's log. -/
def takeOver (unit : WorkUnit) (previous : Lock) (entry : Entry) (why : Moved) : Enter Entered := do
  let _ ← call (Effect.handOver (entry.claim unit.id))
  recordHandOff unit.id previous entry why
  pure .takenOver

/-- Answer an entry whose write found the row already changed. -/
def contested (unit : WorkUnit) (entry : Entry) : Enter Entered := do
  let won : Option Lock ← call (Effect.get unit.id)
  match won with
  | none => throw (.storeMissingRow "lock" unit.id)
  | some won => if entry.take then takeOver unit won entry .asked else refuse unit won entry

/-- Whether the recorded session still holds a process. The row is asked before the machine is. -/
def readingOf (holder : Lock) (here : Option ℕ) : Enter (Option Bool) :=
  if holder.wasTakenFrom here then pure none
  else
    match holder.session, here with
    | some recorded, some _ => call (Effect.sessionIsLive recorded)
    | _, _ => pure none

/-- A session is read only where both sides state one and they differ. -/
theorem readingOf_cases (holder : Lock) (here : Option ℕ) :
    (holder.wasTakenFrom here = true ∨ holder.session = none ∨ here = none) ∧
      readingOf holder here = pure none ∨
    ∃ sid asking, ¬holder.wasTakenFrom here = true ∧ holder.session = some sid ∧
      here = some asking ∧ readingOf holder here = call (Effect.sessionIsLive sid) := by
  unfold readingOf
  by_cases hsame : holder.wasTakenFrom here = true
  · exact .inl ⟨.inl hsame, if_pos hsame⟩
  · rw [if_neg hsame]
    cases hsid : holder.session with
    | none => exact .inl ⟨.inr (.inl rfl), rfl⟩
    | some sid =>
      cases here with
      | none => exact .inl ⟨.inr (.inr rfl), rfl⟩
      | some asking => exact .inr ⟨sid, asking, hsame, rfl, rfl, rfl⟩

/-- The hold a refresh writes: the recorded lineage comes before the entry's own. -/
def Entry.refresh (entry : Entry) (holder : Lock) : Lock :=
  { entry.claim holder.unitId with session := holder.session.or entry.session }

/-- Write the refresh, against the idle window of the hold that was read. -/
def renew (unit : WorkUnit) (holder : Lock) (entry : Entry) : Enter Entered := do
  let refreshed : Bool ← call (Effect.take (entry.refresh holder) entry.now
    (holder.idleDeadline entry.idleHours))
  if refreshed then pure .refreshed else contested unit entry

/-- Answer an entry by somebody who does not hold the unit. -/
def challenge (unit : WorkUnit) (holder : Lock) (entry : Entry) : Enter Entered :=
  if entry.take then takeOver unit holder entry .asked else refuse unit holder entry

/-- Answer one entry against the holder the registry has. -/
def settle (unit : WorkUnit) (holder : Lock) (entry : Entry) : Enter Entered :=
  if holder.IsHeldBy entry.actor entry.host then do
    let reading ← readingOf holder entry.session
    match lineage holder entry.session reading with
    | .same | .unreadable => renew unit holder entry
    | .gone => takeOver unit holder entry .provenDead
    | .second => challenge unit holder entry
  else challenge unit holder entry

/-- Take a hold that is free or has lapsed, in one statement. The deadline it is taken with is the one
of the hold the entry would write. -/
def takeFree (unit : WorkUnit) (held : Option Lock) (entry : Entry) : Enter Entered := do
  let mine := entry.claim unit.id
  let taken : Bool ← call (Effect.take mine entry.now (mine.idleDeadline entry.idleHours))
  if taken then
    match held.filter fun held ↦ held.actor.isSome with
    | some lapsed => recordHandOff unit.id lapsed entry .leaseExpired
    | none => pure ()
    pure .took
  else
    -- Somebody won the race between the read and the write, or the row did not yield.
    let won : Option Lock ← call (Effect.get unit.id)
    match won with
    | none => throw (.storeMissingRow "lock" unit.id)
    | some won => settle unit won entry

/-- Take or refresh the write on a unit. -/
def enter (unit : WorkUnit) (entry : Entry) : Enter Entered := do
  let held : Option Lock ← call (Effect.get unit.id)
  match held.filter fun held ↦ held.HoldsAnyone entry.now entry.idleHours with
  | some holder => settle unit holder entry
  | none => takeFree unit held entry

/-- The processes `ι` that enter homes of one registry. A process that dies leaves the rows as they
are. -/
def machine (ι : Type) :
    Machine ι (WorkUnit × Entry) Registry Effect Effect.Answer Effect.Choice
      (Except Error Entered) where
  program _ job := (enter job.1 job.2).run
  enter _ _ r := some r
  leave _ r := r
  perform _ effect choice r := perform effect choice r

end Nodal.Locks
