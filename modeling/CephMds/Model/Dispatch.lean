import CephMds.Framework.Run
import Mathlib

/-!
# Messages while the beacon is laggy

`MDS::_dispatch` and `MDS::_advance_queues`, as steps of a server whose beacon
becomes laggy and recovers at any time, also between two iterations of a loop.
What runs under `mds_lock` runs until `_advance_queues` returns. Of the map it
matters which messages are stale, and of the contexts of the finished queue
that they may retry a message that a handler has put off.
-/

namespace CephMds.Dispatch

/-- A message as it came, or one that a handler has kept and that is dispatched again. -/
inductive Item (μ : Type)
  | incoming (m : μ)
  | retried (m : μ)
  deriving DecidableEq

def Item.message {μ : Type} : Item μ → μ
  | incoming m => m
  | retried m => m

structure Server (μ : Type) where
  isLaggy : Bool
  isStaleMessage : μ → Bool
  /-- `mds_lock` is held, and `_advance_queues` is not done. -/
  advancing : Bool
  waitingForNolaggy : List (Item μ)
  /-- What came in that is not for `handle_core_message`, in order. -/
  arrived : List μ
  /-- What was given to `handle_deferrable_message`, in order. -/
  handled : List (Item μ)
  /-- What `is_stale_message` has rejected. -/
  rejected : List (Item μ)

inductive Action (μ : Type)
  | beacon (laggy : Bool)
  | mdsMap (stale : μ → Bool)
  /-- `ms_dispatch` of a message that is not a core message. -/
  | dispatch (m : μ)
  /-- `ms_dispatch` of a core message, or the progress thread. -/
  | advance
  /-- `C_MDS_RetryMessage`, when the lock is free or in `_advance_queues`. -/
  | retry (m : μ)
  /-- The next message of `waiting_for_nolaggy`. -/
  | next
  /-- `_advance_queues` returns. -/
  | done

variable {μ : Type}

namespace Server

/-- Nothing has arrived. -/
def initial : Server μ := ⟨false, fun _ => false, false, [], [], [], []⟩

/-- `_dispatch`, up to the call of `_advance_queues`. It returns before that
when the message is stale, or of no type that `handle_deferrable_message` knows. -/
def dispatch (recognized : μ → Bool) (s : Server μ) (i : Item μ) : Server μ :=
  if s.isStaleMessage i.message then { s with rejected := s.rejected ++ [i] }
  else if s.isLaggy then { s with waitingForNolaggy := s.waitingForNolaggy ++ [i], advancing := true }
  else { s with handled := s.handled ++ [i], advancing := s.advancing || recognized i.message }

/-- A message that has been deferred. -/
def processDeferred (s : Server μ) (i : Item μ) (rest : List (Item μ)) : Server μ :=
  if s.isStaleMessage i.message then { s with waitingForNolaggy := rest, rejected := s.rejected ++ [i] }
  else { s with waitingForNolaggy := rest, handled := s.handled ++ [i] }

def step (recognized : μ → Bool) (s : Server μ) : Action μ → Option (Server μ)
  | .beacon laggy => some { s with isLaggy := laggy }
  | .mdsMap stale => some { s with isStaleMessage := stale }
  | .dispatch m =>
    if s.advancing then none
    else some (({ s with arrived := s.arrived ++ [m] } : Server μ).dispatch recognized (.incoming m))
  | .advance => if s.advancing then none else some { s with advancing := true }
  | .retry m => some (s.dispatch recognized (.retried m))
  | .next =>
    match s.waitingForNolaggy with
    | [] => none
    | i :: rest => if s.advancing && !s.isLaggy then some (s.processDeferred i rest) else none
  | .done =>
    if s.advancing && (s.waitingForNolaggy.isEmpty || s.isLaggy) then some { s with advancing := false } else none

end Server

end CephMds.Dispatch
