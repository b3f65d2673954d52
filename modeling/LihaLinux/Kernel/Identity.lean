import LihaLinux.Kernel.Processes
import Mathlib.Data.BitVec

/-!
# User and group numbers

`sys_setreuid` and `sys_setregid` change two numbers one after the other, and `sys_setuid` and
`sys_setgid` call them with one argument. The arguments are of type `int` and the numbers of a task
of type `unsigned short`; an argument that is not positive leaves its number alone.
-/

namespace LihaLinux.Kernel

open Processes (ePerm)

/-- The user and group numbers of a task. -/
structure Ids where
  uid : BitVec 16
  euid : BitVec 16
  gid : BitVec 16
  egid : BitVec 16
  sgid : BitVec 16
  deriving DecidableEq

/-- The comparison of a number with an argument, both as `int`. -/
def sameId (id : BitVec 16) (arg : ℤ) : Bool := (id.toNat : ℤ) = arg

/-- The value that an argument has once it is stored. -/
def storedId (arg : ℤ) : BitVec 16 := BitVec.ofInt 16 arg

namespace Ids

/-- `suser`. -/
def suser (ids : Ids) : Bool := ids.euid = 0

/-- The first half of `sys_setregid`. -/
def setGid (ids : Ids) (rgid : ℤ) : Option Ids :=
  if 0 < rgid then
    if sameId ids.gid rgid || ids.suser then some { ids with gid := storedId rgid } else none
  else some ids

/-- The second half of `sys_setregid`. -/
def setEgid (ids : Ids) (egid : ℤ) : Option Ids :=
  if 0 < egid then
    if sameId ids.gid egid || sameId ids.egid egid || sameId ids.sgid egid || ids.suser then
      some { ids with egid := storedId egid }
    else none
  else some ids

/-- `sys_setregid`. -/
def sysSetregid (ids : Ids) (rgid egid : ℤ) : Ids × ℤ :=
  match ids.setGid rgid with
  | none => (ids, -ePerm)
  | some ids =>
    match ids.setEgid egid with
    | none => (ids, -ePerm)
    | some ids => (ids, 0)

/-- `sys_setgid`. -/
def sysSetgid (ids : Ids) (gid : ℤ) : Ids × ℤ := ids.sysSetregid gid gid

/-- The first half of `sys_setreuid`. -/
def setUid (ids : Ids) (ruid : ℤ) : Option Ids :=
  if 0 < ruid then
    if sameId ids.euid ruid || sameId ids.uid ruid || ids.suser then
      some { ids with uid := storedId ruid }
    else none
  else some ids

/-- The second half of `sys_setreuid`, which compares with the old `uid`. -/
def setEuid (ids : Ids) (oldRuid : BitVec 16) (euid : ℤ) : Option Ids :=
  if 0 < euid then
    if sameId oldRuid euid || sameId ids.euid euid || ids.suser then
      some { ids with euid := storedId euid }
    else none
  else some ids

/-- `sys_setreuid`. -/
def sysSetreuid (ids : Ids) (ruid euid : ℤ) : Ids × ℤ :=
  match ids.setUid ruid with
  | none => (ids, -ePerm)
  | some new =>
    match new.setEuid ids.uid euid with
    | none => ({ new with uid := ids.uid }, -ePerm)
    | some new => (new, 0)

/-- `sys_setuid`. -/
def sysSetuid (ids : Ids) (uid : ℤ) : Ids × ℤ := ids.sysSetreuid uid uid

end Ids

/-- The calls that change user and group numbers. -/
inductive IdCall
  | setreuid (ruid euid : ℤ)
  | setuid (uid : ℤ)
  | setregid (rgid egid : ℤ)
  | setgid (gid : ℤ)
  deriving DecidableEq

namespace Ids

/-- One call: the new numbers and what the call returns. -/
def call (ids : Ids) : IdCall → Ids × ℤ
  | .setreuid ruid euid => ids.sysSetreuid ruid euid
  | .setuid uid => ids.sysSetuid uid
  | .setregid rgid egid => ids.sysSetregid rgid egid
  | .setgid gid => ids.sysSetgid gid

/-- The numbers after a sequence of calls. -/
def run (ids : Ids) : List IdCall → Ids
  | [] => ids
  | c :: cs => (ids.call c).1.run cs

/-- What an unprivileged task can have made of its numbers: it stays unprivileged, and every number
is one of those that it started with. -/
structure Confined (start ids : Ids) : Prop where
  unprivileged : ids.euid ≠ 0
  uid : ids.uid = start.uid ∨ ids.uid = start.euid
  euid : ids.euid = start.uid ∨ ids.euid = start.euid
  gid : ids.gid = start.gid ∨ ids.gid = start.egid ∨ ids.gid = start.sgid
  egid : ids.egid = start.gid ∨ ids.egid = start.egid ∨ ids.egid = start.sgid
  sgid : ids.sgid = start.sgid

/-- A number that equals an argument is stored unchanged. -/
theorem storedId_of_sameId {id : BitVec 16} {arg : ℤ} (h : sameId id arg = true) :
    storedId arg = id := by
  rw [← of_decide_eq_true h, storedId]
  apply BitVec.eq_of_toNat_eq
  have hlt := id.isLt
  rw [BitVec.toNat_ofInt]
  omega

/-- A number that equals a positive argument is not zero. -/
theorem ne_zero_of_sameId {id : BitVec 16} {arg : ℤ} (hpos : 0 < arg)
    (h : sameId id arg = true) : id ≠ 0 := by
  rintro rfl
  have hzero : (0 : ℤ) = arg := of_decide_eq_true h
  omega

theorem suser_eq_false {ids : Ids} (h : ids.euid ≠ 0) : ids.suser = false :=
  decide_eq_false h

/-! ### The halves of the calls, for an unprivileged task -/

/-- Storing `gid` changes nothing. -/
theorem setGid_cases {ids new : Ids} {rgid : ℤ} (hroot : ids.euid ≠ 0)
    (h : ids.setGid rgid = some new) : new = ids := by
  rw [setGid, suser_eq_false hroot, Bool.or_false] at h
  split at h
  · split at h
    · rename_i hsame
      rw [storedId_of_sameId hsame] at h
      exact (Option.some.inj h).symm
    · exact absurd h (by simp)
  · exact (Option.some.inj h).symm

/-- `egid` stays or becomes one of the three group numbers. -/
theorem setEgid_cases {ids new : Ids} {egid : ℤ} (hroot : ids.euid ≠ 0)
    (h : ids.setEgid egid = some new) :
    ∃ id, new = { ids with egid := id } ∧ (id = ids.gid ∨ id = ids.egid ∨ id = ids.sgid) := by
  rw [setEgid, suser_eq_false hroot, Bool.or_false] at h
  split at h
  · split at h
    · rename_i hsame
      refine ⟨storedId egid, (Option.some.inj h).symm, ?_⟩
      rcases (Bool.or_eq_true _ _).mp hsame with hsame | hsame
      · rcases (Bool.or_eq_true _ _).mp hsame with hsame | hsame
        · exact Or.inl (storedId_of_sameId hsame)
        · exact Or.inr (Or.inl (storedId_of_sameId hsame))
      · exact Or.inr (Or.inr (storedId_of_sameId hsame))
    · exact absurd h (by simp)
  · exact ⟨ids.egid, (Option.some.inj h).symm, Or.inr (Or.inl rfl)⟩

/-- `uid` stays or becomes `euid`. -/
theorem setUid_cases {ids new : Ids} {ruid : ℤ} (hroot : ids.euid ≠ 0)
    (h : ids.setUid ruid = some new) :
    ∃ id, new = { ids with uid := id } ∧ (id = ids.uid ∨ id = ids.euid) := by
  rw [setUid, suser_eq_false hroot, Bool.or_false] at h
  split at h
  · split at h
    · rename_i hsame
      refine ⟨storedId ruid, (Option.some.inj h).symm, ?_⟩
      rcases (Bool.or_eq_true _ _).mp hsame with hsame | hsame
      · exact Or.inr (storedId_of_sameId hsame)
      · exact Or.inl (storedId_of_sameId hsame)
    · exact absurd h (by simp)
  · exact ⟨ids.uid, (Option.some.inj h).symm, Or.inl rfl⟩

/-- `euid` stays or becomes the old `uid`, and is not zero. -/
theorem setEuid_cases {ids new : Ids} {oldRuid : BitVec 16} {euid : ℤ} (hroot : ids.euid ≠ 0)
    (h : ids.setEuid oldRuid euid = some new) :
    ∃ id, new = { ids with euid := id } ∧ id ≠ 0 ∧ (id = oldRuid ∨ id = ids.euid) := by
  rw [setEuid, suser_eq_false hroot, Bool.or_false] at h
  split at h
  · rename_i hpos
    split at h
    · rename_i hsame
      refine ⟨storedId euid, (Option.some.inj h).symm, ?_⟩
      rcases (Bool.or_eq_true _ _).mp hsame with hsame | hsame
      · rw [storedId_of_sameId hsame]
        exact ⟨ne_zero_of_sameId hpos hsame, Or.inl rfl⟩
      · rw [storedId_of_sameId hsame]
        exact ⟨hroot, Or.inr rfl⟩
    · exact absurd h (by simp)
  · exact ⟨ids.euid, (Option.some.inj h).symm, hroot, Or.inr rfl⟩

/-! ### The calls -/

/-- What one call does to the numbers of an unprivileged task. -/
structure Change (ids : Ids) (r : Ids × ℤ) : Prop where
  unprivileged : r.1.euid ≠ 0
  uid : r.1.uid = ids.uid ∨ r.1.uid = ids.euid
  euid : r.1.euid = ids.uid ∨ r.1.euid = ids.euid
  gid : r.1.gid = ids.gid
  egid : r.1.egid = ids.gid ∨ r.1.egid = ids.egid ∨ r.1.egid = ids.sgid
  sgid : r.1.sgid = ids.sgid
  failed : r.2 = -ePerm → r.1 = ids

/-- A call that fails at once. -/
theorem Change.unchanged {ids : Ids} (hroot : ids.euid ≠ 0) (n : ℤ) : Change ids (ids, n) where
  unprivileged := hroot
  uid := Or.inl rfl
  euid := Or.inr rfl
  gid := rfl
  egid := Or.inr (Or.inl rfl)
  sgid := rfl
  failed _ := rfl

theorem sysSetregid_change {ids : Ids} (hroot : ids.euid ≠ 0) (rgid egid : ℤ) :
    Change ids (ids.sysSetregid rgid egid) := by
  rw [sysSetregid]
  cases hgid : ids.setGid rgid with
  | none => exact .unchanged hroot _
  | some new =>
    obtain rfl := setGid_cases hroot hgid
    dsimp only
    cases hegid : new.setEgid egid with
    | none => exact .unchanged hroot _
    | some last =>
      obtain ⟨id, rfl, hid⟩ := setEgid_cases hroot hegid
      have hok : (0 : ℤ) ≠ -ePerm := by decide
      exact ⟨hroot, Or.inl rfl, Or.inr rfl, rfl, hid, rfl, fun h => absurd h hok⟩

theorem sysSetreuid_change {ids : Ids} (hroot : ids.euid ≠ 0) (ruid euid : ℤ) :
    Change ids (ids.sysSetreuid ruid euid) := by
  rw [sysSetreuid]
  cases huid : ids.setUid ruid with
  | none => exact .unchanged hroot _
  | some new =>
    obtain ⟨id, rfl, hid⟩ := setUid_cases hroot huid
    dsimp only
    cases heuid : Ids.setEuid { ids with uid := id } ids.uid euid with
    | none => exact .unchanged hroot _
    | some last =>
      have hroot' : Ids.euid { ids with uid := id } ≠ 0 := hroot
      obtain ⟨id', rfl, hne, hid'⟩ := setEuid_cases hroot' heuid
      have hok : (0 : ℤ) ≠ -ePerm := by decide
      exact ⟨hne, hid, hid', rfl, Or.inr (Or.inl rfl), rfl, fun h => absurd h hok⟩

theorem call_change {ids : Ids} (hroot : ids.euid ≠ 0) (c : IdCall) :
    Change ids (ids.call c) := by
  cases c with
  | setreuid ruid euid => exact sysSetreuid_change hroot ruid euid
  | setuid uid => exact sysSetreuid_change hroot uid uid
  | setregid rgid egid => exact sysSetregid_change hroot rgid egid
  | setgid gid => exact sysSetregid_change hroot gid gid

/-- One call keeps the numbers confined. -/
theorem Confined.call {start ids : Ids} (h : Confined start ids) (c : IdCall) :
    Confined start (ids.call c).1 := by
  have hchange := call_change h.unprivileged c
  constructor
  · exact hchange.unprivileged
  · rcases hchange.uid with heq | heq
    · rw [heq]
      exact h.uid
    · rw [heq]
      exact h.euid
  · rcases hchange.euid with heq | heq
    · rw [heq]
      exact h.uid
    · rw [heq]
      exact h.euid
  · rw [hchange.gid]
    exact h.gid
  · rcases hchange.egid with heq | heq | heq
    · rw [heq]
      exact h.gid
    · rw [heq]
      exact h.egid
    · rw [heq, h.sgid]
      exact Or.inr (Or.inr rfl)
  · rw [hchange.sgid]
    exact h.sgid

theorem Confined.run {start ids : Ids} (h : Confined start ids) (cs : List IdCall) :
    Confined start (ids.run cs) := by
  induction cs generalizing ids with
  | nil => exact h
  | cons c cs ih => exact ih (h.call c)

/-- A task that is not the superuser keeps to the numbers that it has, whatever calls it makes, and
a call that fails with `EPERM` changes none of them. -/
theorem run_confined {ids : Ids} (hroot : ids.euid ≠ 0) (cs : List IdCall) :
    Confined ids (ids.run cs) ∧
      ∀ c, ((ids.run cs).call c).2 = -ePerm → ((ids.run cs).call c).1 = ids.run cs := by
  have hstart : Confined ids ids :=
    ⟨hroot, Or.inl rfl, Or.inr rfl, Or.inl rfl, Or.inr (Or.inl rfl), rfl⟩
  have hrun := hstart.run cs
  exact ⟨hrun, fun c => (call_change hrun.unprivileged c).failed⟩

/-- A set-user-id program swaps its user numbers and then cannot take a third one. -/
theorem run_confined_swap :
    (run ⟨5, 7, 2, 2, 2⟩ [.setreuid 7 5]).call (.setreuid 5 9) = (⟨7, 5, 2, 2, 2⟩, -ePerm) ∧
      Confined ⟨5, 7, 2, 2, 2⟩ (run ⟨5, 7, 2, 2, 2⟩ [.setreuid 7 5]) :=
  ⟨by decide, (run_confined (by decide) _).1⟩

end Ids

end LihaLinux.Kernel
