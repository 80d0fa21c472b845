import BatmanAdv.UnixListen
import Mathlib.Logic.Function.Basic

/-!
# `debug_output`

A message goes to every client of its level, under the mutex of that level. The mutex is only tried: when
the unix thread has it, `debug_output` reports that through itself with priority 0, which is level 3. So the
report of a busy mutex needs the mutex of level 3, and when that one is busy too the calls never end.

Another thread has a mutex here for as long as the call lasts. Levels outside `debug_clients` read whatever
stands there; no result depends on it.
-/

namespace BatmanAdv

/-! ## The mutexes -/

/-- Who has a mutex. -/
inductive MutexOwner where
  | free
  | self
  | other
  deriving DecidableEq

abbrev DebugMutexes : Type := ℤ → MutexOwner

def EPERM : ℤ := 1
def EBUSY : ℤ := 16

def pthreadMutexTrylock (mutex : DebugMutexes) (level : ℤ) : ℤ × DebugMutexes :=
  if mutex level = .free then (0, Function.update mutex level .self) else (EBUSY, mutex)

/-- Errors are positive, so `< 0` never sees one. -/
def pthreadMutexUnlock (mutex : DebugMutexes) (level : ℤ) : ℤ × DebugMutexes :=
  if mutex level = .self then (0, Function.update mutex level .free) else (EPERM, mutex)

theorem pthreadMutexTrylock_free {mutex : DebugMutexes} {level : ℤ} (h : mutex level = .free) :
    pthreadMutexTrylock mutex level = (0, Function.update mutex level .self) := if_pos h

theorem pthreadMutexTrylock_busy {mutex : DebugMutexes} {level : ℤ} (h : mutex level ≠ .free) :
    pthreadMutexTrylock mutex level = (EBUSY, mutex) := if_neg h

theorem pthreadMutexUnlock_trylock {mutex : DebugMutexes} {level : ℤ} (h : mutex level = .free) :
    pthreadMutexUnlock (pthreadMutexTrylock mutex level).2 level = (0, mutex) := by
  rw [pthreadMutexTrylock_free h]
  unfold pthreadMutexUnlock
  rw [if_pos (Function.update_self ..), Function.update_idem, ← h, Function.update_eq_self]

/-! ## The function -/

/-- `debug_clients`, as the calls read it: the `fd` of every entry of a list, and the counters. -/
structure DebugClients where
  fdList : ℤ → List ℕ
  clientsNum : ℤ → BitVec 16

/-- What is written, and where: the arguments of a format are not modelled. -/
inductive DebugWrite where
  | vsyslog (format : String)
  | printfTime
  | vprintf (format : String)
  | dprintfTime (fd : ℕ)
  | vdprintf (fd : ℕ) (format : String)
  | clear
  deriving DecidableEq

/-- `strncmp( format, marker, 3 ) == 0`. -/
def markedWith (format : String) (marker : List Char) : Prop := format.toList.take 3 = marker

instance (format : String) (marker : List Char) : Decidable (markedWith format marker) :=
  inferInstanceAs (Decidable (_ = _))

def trylockError : String := "Error - could not trylock mutex (debug_output): %s \n"
def unlockError : String := "Error - could not unlock mutex (debug_output): %s \n"

/-- What priority 0 writes besides: to the log, or to the terminal of the daemon. -/
def errorWrites (debugLevel : Byte) (format : String) : List DebugWrite :=
  if debugLevel = 0 then [.vsyslog format]
  else if debugLevel = 3 ∨ debugLevel = 4 then
    (if debugLevel = 4 then [.printfTime] else []) ++ [.vprintf format]
  else []

def debugPrioIntern (debugPrio : BitVec 8) : BitVec 8 := if debugPrio = 0 then 3 else debugPrio - 1

def clientWrites (debugLevel : Byte) (intern : BitVec 8) (format : String) (fd : ℕ) : List DebugWrite :=
  (if intern = 3 then [.dprintfTime fd] else []) ++
    if (debugLevel = 1 ∨ debugLevel = 2) ∧ fd = 1 ∧ markedWith format ['B', 'O', 'D'] then [.clear]
    else if (debugLevel ≠ 1 ∧ debugLevel ≠ 2) ∨ fd ≠ 1 ∨ ¬ markedWith format ['E', 'O', 'D'] then
      [.vdprintf fd format]
    else []

/-- `debug_output`, with as many calls in each other as there is fuel. -/
def debugOutput (clients : DebugClients) (debugLevel : Byte) :
    ℕ → DebugMutexes → BitVec 8 → String → Option (DebugMutexes × List DebugWrite)
  | 0, _, _, _ => none
  | fuel + 1, mutex, debugPrio, format =>
    let written := if debugPrio = 0 then errorWrites debugLevel format else []
    let level := (debugPrioIntern debugPrio).toInt
    if 0 < (clients.clientsNum level).toInt then
      let trylock := pthreadMutexTrylock mutex level
      if trylock.1 = 0 then
        let listed := (clients.fdList level).flatMap (clientWrites debugLevel (debugPrioIntern debugPrio) format)
        let unlock := pthreadMutexUnlock trylock.2 level
        if unlock.1 < 0 then
          (debugOutput clients debugLevel fuel unlock.2 0 unlockError).map fun r =>
            (r.1, written ++ listed ++ r.2)
        else some (unlock.2, written ++ listed)
      else
        (debugOutput clients debugLevel fuel trylock.2 0 trylockError).map fun r => (r.1, written ++ r.2)
    else some (mutex, written)

variable {clients : DebugClients} {debugLevel : Byte} {mutex : DebugMutexes} {debugPrio : BitVec 8}
  {format : String} {fuel : ℕ}

def DebugOutputReturns (clients : DebugClients) (debugLevel : Byte) (mutex : DebugMutexes)
    (debugPrio : BitVec 8) (format : String) : Prop :=
  ∃ fuel, debugOutput clients debugLevel fuel mutex debugPrio format ≠ none

/-- A message for this level finds clients, and cannot have the mutex. -/
def Contended (clients : DebugClients) (mutex : DebugMutexes) (level : ℤ) : Prop :=
  0 < (clients.clientsNum level).toInt ∧ mutex level ≠ .free

/-! ## The two ways through a call -/

/-- Without contention a call makes no other, and leaves the mutexes as they were. -/
theorem debugOutput_of_not_contended
    (h : ¬ Contended clients mutex (debugPrioIntern debugPrio).toInt) :
    ∃ written, debugOutput clients debugLevel (fuel + 1) mutex debugPrio format = some (mutex, written) := by
  unfold debugOutput
  dsimp only
  by_cases hclients : 0 < (clients.clientsNum (debugPrioIntern debugPrio).toInt).toInt
  · have hfree : mutex (debugPrioIntern debugPrio).toInt = .free := by
      by_contra hbusy
      exact h ⟨hclients, hbusy⟩
    rw [if_pos hclients, pthreadMutexUnlock_trylock hfree, pthreadMutexTrylock_free hfree, if_pos rfl]
    rw [if_neg (lt_irrefl _)]
    exact ⟨_, rfl⟩
  · rw [if_neg hclients]
    exact ⟨_, rfl⟩

/-- With contention a call ends just when its report does. -/
theorem debugOutput_of_contended (h : Contended clients mutex (debugPrioIntern debugPrio).toInt) :
    debugOutput clients debugLevel (fuel + 1) mutex debugPrio format =
      (debugOutput clients debugLevel fuel mutex 0 trylockError).map fun r =>
        (r.1, (if debugPrio = 0 then errorWrites debugLevel format else []) ++ r.2) := by
  rw [debugOutput]
  dsimp only
  rw [if_pos h.1, pthreadMutexTrylock_busy h.2]
  exact if_neg (by simp [EBUSY])

/-- The report of a busy mutex of level 3 meets that mutex again, at every depth. -/
theorem debugOutput_report (h : Contended clients mutex 3) :
    debugOutput clients debugLevel fuel mutex 0 format = none := by
  induction fuel generalizing format with
  | zero => rfl
  | succ fuel ih =>
    have hlevel : (debugPrioIntern 0).toInt = 3 := by decide
    rw [debugOutput_of_contended (by rwa [hlevel]), ih]
    rfl

theorem debugOutput_stuck (hown : Contended clients mutex (debugPrioIntern debugPrio).toInt)
    (h : Contended clients mutex 3) : ¬ DebugOutputReturns clients debugLevel mutex debugPrio format := by
  rintro ⟨fuel, hreturns⟩
  cases fuel with
  | zero => exact hreturns rfl
  | succ fuel =>
    apply hreturns
    rw [debugOutput_of_contended hown, debugOutput_report h]
    rfl

/-! ## When a call returns -/

/-- **`debug_output` returns just when it does not meet contention both at its own level and at level 3.** -/
theorem debugOutput_returns_iff (clients : DebugClients) (debugLevel : Byte) (mutex : DebugMutexes)
    (debugPrio : BitVec 8) (format : String) :
    DebugOutputReturns clients debugLevel mutex debugPrio format ↔
      ¬ (Contended clients mutex (debugPrioIntern debugPrio).toInt ∧ Contended clients mutex 3) := by
  constructor
  · rintro hreturns ⟨hown, hreport⟩
    exact debugOutput_stuck hown hreport hreturns
  · intro h
    by_cases hown : Contended clients mutex (debugPrioIntern debugPrio).toInt
    · -- the report finds level 3 free, so it is the last call
      have hreport : ¬ Contended clients mutex (debugPrioIntern 0).toInt := fun h3 => h ⟨hown, h3⟩
      have hlast : ∃ written, debugOutput clients debugLevel 1 mutex 0 trylockError = some (mutex, written) :=
        debugOutput_of_not_contended hreport
      obtain ⟨written, hlast⟩ := hlast
      refine ⟨2, ?_⟩
      rw [debugOutput_of_contended hown, hlast]
      simp
    · have hlast : ∃ written, debugOutput clients debugLevel 1 mutex debugPrio format = some (mutex, written) :=
        debugOutput_of_not_contended hown
      obtain ⟨written, hlast⟩ := hlast
      exact ⟨1, by rw [hlast]; simp⟩

/-- One client on the list of level 4 and the unix thread in that list: no message for it comes back. -/
theorem debugOutput_not_returning :
    ¬ ∀ (clients : DebugClients) (debugLevel : Byte) (mutex : DebugMutexes) (debugPrio : BitVec 8)
      (format : String), DebugOutputReturns clients debugLevel mutex debugPrio format := by
  intro h
  have hcontended : Contended ⟨fun level => if level = 3 then [5] else [], fun level => if level = 3 then 1 else 0⟩
      (fun level => if level = 3 then .other else .free) 3 := ⟨by decide, by decide⟩
  have hintern : (debugPrioIntern 4).toInt = 3 := by decide
  exact debugOutput_stuck (by rwa [hintern]) hcontended (h _ 0 _ 4 "update_routes() \n")

end BatmanAdv
