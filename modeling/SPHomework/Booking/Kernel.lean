import Mathlib.Tactic
import SPHomework.Booking.System

set_option autoImplicit false

/-!
# What holds of the kernel at all times

The file is the initial file plus the stored commands, write locks exclude, and
sessions are told apart by their number. Each operation preserves it.
-/

namespace SPHomework.Booking

open Lib

variable {P : Type}

def Kernel.Booked (kernel : Kernel P) (sid : Nat) : Prop := sid ∈ kernel.ledger.map Conn.sid

def Conn.Told (conn : Conn) : Prop := ∃ record, Message.updated record ∈ conn.shown

def deltas (ledger : List Conn) (record : Nat) : List Counts :=
  (ledger.filter fun conn => conn.entered = some record).filterMap Conn.delta

-- A record after the stored commands.
def afterBookings (file : Nat → Record) (ledger : List Conn) (record : Nat) : Record :=
  ⟨(file record).id, (file record).counts + (deltas ledger record).sum⟩

structure KernelInv (file : Nat → Record) (kernel : Kernel P) : Prop where
  exclusive : ∀ pid other record, pid ≠ other →
    kernel.locks pid record = some .write → kernel.locks other record = none
  content : ∀ record, kernel.file record = afterBookings file kernel.ledger record
  openSid : ∀ pid fd conn, kernel.conns pid fd = some conn → conn.sid < kernel.nextSid
  unique : ∀ pid fd conn pid' fd' conn', kernel.conns pid fd = some conn →
    kernel.conns pid' fd' = some conn' → conn.sid = conn'.sid → pid = pid' ∧ fd = fd'
  stored : ∀ conn ∈ kernel.ledger,
    conn.sid < kernel.nextSid ∧ conn.entered.isSome ∧ conn.delta.isSome
  once : (kernel.ledger.map Conn.sid).Nodup
  told : ∀ pid fd conn, kernel.conns pid fd = some conn → conn.Told → kernel.Booked conn.sid
  past : ∀ conn ∈ kernel.past, conn.sid < kernel.nextSid ∧ (kernel.Booked conn.sid ↔ conn.Told)
  apart : ∀ conn ∈ kernel.past, ∀ pid fd conn', kernel.conns pid fd = some conn' →
    conn.sid ≠ conn'.sid

variable [DecidableEq P]

@[simp] theorem Kernel.setConn_conns (kernel : Kernel P) (pid other : P) (fd number : Nat)
    (conn : Option Conn) :
    (kernel.setConn pid fd conn).conns other number =
      if other = pid ∧ number = fd then conn else kernel.conns other number := by
  simp only [Kernel.setConn, Function.update_apply]
  split_ifs <;> simp_all

@[simp] theorem Kernel.setLock_locks (kernel : Kernel P) (pid other : P) (record number : Nat)
    (lock : Option LockMode) :
    (kernel.setLock pid record lock).locks other number =
      if other = pid ∧ number = record then lock else kernel.locks other number := by
  simp only [Kernel.setLock, Function.update_apply]
  split_ifs <;> simp_all

@[simp] theorem Kernel.seek_offset (kernel : Kernel P) (pid : P) (record : Nat) :
    (kernel.seek pid record).offset pid = record := Function.update_self ..

@[simp] theorem Kernel.setLock_leaked (kernel : Kernel P) (pid : P) (record : Nat)
    (lock : Option LockMode) : (kernel.setLock pid record lock).leaked = kernel.leaked := rfl

@[simp] theorem Kernel.exit_locks (kernel : Kernel P) (pid other : P) (record : Nat) :
    (kernel.exit pid).locks other record = if other = pid then none else kernel.locks other record := by
  simp only [Kernel.exit, Function.update_apply]
  split_ifs <;> rfl

@[simp] theorem Kernel.exit_conns (kernel : Kernel P) (pid other : P) (fd : Nat) :
    (kernel.exit pid).conns other fd = if other = pid then none else kernel.conns other fd := by
  simp only [Kernel.exit, Function.update_apply]
  split_ifs <;> rfl

@[simp] theorem Kernel.grant_file (kernel : Kernel P) (pid : P) (fd : Nat) (mode : LockMode)
    (record : Nat) : (kernel.grant pid fd mode record).file = kernel.file := by
  simp only [Kernel.grant]
  split_ifs <;> rfl

@[simp] theorem Kernel.grant_ledger (kernel : Kernel P) (pid : P) (fd : Nat) (mode : LockMode)
    (record : Nat) : (kernel.grant pid fd mode record).ledger = kernel.ledger := by
  simp only [Kernel.grant]
  split_ifs <;> rfl

@[simp] theorem Kernel.grant_conns (kernel : Kernel P) (pid : P) (fd : Nat) (mode : LockMode)
    (record : Nat) : (kernel.grant pid fd mode record).conns = kernel.conns := by
  simp only [Kernel.grant]
  split_ifs <;> rfl

@[simp] theorem Kernel.grant_locks (kernel : Kernel P) (pid other : P) (fd : Nat) (mode : LockMode)
    (record number : Nat) :
    (kernel.grant pid fd mode record).locks other number =
      if other = pid ∧ number = record then some mode else kernel.locks other number := by
  rw [← Kernel.setLock_locks]
  simp only [Kernel.grant]
  split_ifs <;> rfl

@[simp] theorem Kernel.grant_leaked (kernel : Kernel P) (pid other : P) (fd : Nat) (mode : LockMode)
    (record number : Nat) :
    (kernel.grant pid fd mode record).leaked other number = kernel.leaked other number +
      if other = pid ∧ kernel.conns pid fd = none ∧ number = record then 1 else 0 := by
  simp only [Kernel.grant, Option.isNone_iff_eq_none]
  by_cases closed : kernel.conns pid fd = none <;> by_cases mine : other = pid <;>
    by_cases same : number = record <;> simp [closed, same, mine, Kernel.leak, Kernel.setLock]

namespace KernelInv

variable {file : Nat → Record} {kernel : Kernel P}

theorem setConn (inv : KernelInv file kernel) {pid : P} {fd : Nat} {conn conn' : Conn}
    (here : kernel.conns pid fd = some conn) (same : conn'.sid = conn.sid)
    (told : conn'.Told → kernel.Booked conn.sid) :
    KernelInv file (kernel.setConn pid fd (some conn')) := by
  have former : ∀ pid' fd' found, (kernel.setConn pid fd (some conn')).conns pid' fd' = some found →
      ∃ before, kernel.conns pid' fd' = some before ∧ before.sid = found.sid ∧
        (found.Told → kernel.Booked found.sid) := by
    intro pid' fd' found present
    rw [Kernel.setConn_conns] at present
    split_ifs at present with at_fd
    · obtain ⟨rfl, rfl⟩ := at_fd
      obtain rfl := Option.some.inj present
      exact ⟨conn, here, same.symm, fun was => same ▸ told was⟩
    · exact ⟨found, present, rfl, inv.told pid' fd' found present⟩
  refine ⟨inv.exclusive, inv.content, ?_, ?_, inv.stored, inv.once, ?_, inv.past, ?_⟩
  · intro pid' fd' found present
    obtain ⟨before, was, sid, _⟩ := former pid' fd' found present
    exact sid ▸ inv.openSid pid' fd' before was
  · intro pid₁ fd₁ conn₁ pid₂ fd₂ conn₂ first second equal
    obtain ⟨before₁, was₁, sid₁, _⟩ := former pid₁ fd₁ conn₁ first
    obtain ⟨before₂, was₂, sid₂, _⟩ := former pid₂ fd₂ conn₂ second
    exact inv.unique pid₁ fd₁ before₁ pid₂ fd₂ before₂ was₁ was₂ (by rw [sid₁, sid₂, equal])
  · intro pid' fd' found present
    exact (former pid' fd' found present).choose_spec.2.2
  · intro gone member pid' fd' found present
    obtain ⟨before, was, sid, _⟩ := former pid' fd' found present
    exact sid ▸ inv.apart gone member pid' fd' before was

theorem endConn (inv : KernelInv file kernel) {pid : P} {fd : Nat} {conn : Conn}
    (here : kernel.conns pid fd = some conn) (told : kernel.Booked conn.sid → conn.Told) :
    KernelInv file (kernel.endConn pid fd conn) := by
  have former : ∀ pid' fd' found, (kernel.endConn pid fd conn).conns pid' fd' = some found →
      kernel.conns pid' fd' = some found ∧ ¬ (pid' = pid ∧ fd' = fd) := by
    intro pid' fd' found present
    simp only [Kernel.endConn, Kernel.setConn_conns] at present
    split_ifs at present with at_fd
    exact ⟨present, at_fd⟩
  refine ⟨inv.exclusive, inv.content, ?_, ?_, inv.stored, inv.once, ?_, ?_, ?_⟩
  · exact fun pid' fd' found present => inv.openSid pid' fd' found (former _ _ _ present).1
  · intro pid₁ fd₁ conn₁ pid₂ fd₂ conn₂ first second
    exact inv.unique pid₁ fd₁ conn₁ pid₂ fd₂ conn₂ (former _ _ _ first).1 (former _ _ _ second).1
  · exact fun pid' fd' found present => inv.told pid' fd' found (former _ _ _ present).1
  · intro gone member
    rcases List.mem_append.mp member with earlier | last
    · exact inv.past gone earlier
    · obtain rfl := List.mem_singleton.mp last
      exact ⟨inv.openSid pid fd gone here, told, inv.told pid fd gone here⟩
  · intro gone member pid' fd' found present
    obtain ⟨was, elsewhere⟩ := former pid' fd' found present
    rcases List.mem_append.mp member with earlier | last
    · exact inv.apart gone earlier pid' fd' found was
    · obtain rfl := List.mem_singleton.mp last
      exact fun equal => elsewhere (inv.unique _ _ _ _ _ _ was here equal.symm)

theorem setLock (inv : KernelInv file kernel) {pid : P} {record : Nat} {lock : Option LockMode}
    (free : ∀ mode, lock = some mode → ¬ Conflict kernel pid mode record) :
    KernelInv file (kernel.setLock pid record lock) := by
  refine ⟨?_, inv.content, inv.openSid, inv.unique, inv.stored, inv.once, inv.told, inv.past,
    inv.apart⟩
  intro first second number different writes
  simp only [Kernel.setLock_locks] at writes ⊢
  -- the new lock can be the write lock in question or the one it must exclude
  by_cases mine : first = pid ∧ number = record
  · obtain ⟨rfl, rfl⟩ := mine
    rw [if_pos ⟨rfl, rfl⟩] at writes
    rw [if_neg (fun same => different same.1.symm)]
    have clear := free .write writes
    rcases held : kernel.locks second number with _ | mode
    · rfl
    · exfalso
      cases mode
      · exact clear ⟨second, different.symm, .inr ⟨rfl, held⟩⟩
      · exact clear ⟨second, different.symm, .inl held⟩
  · rw [if_neg mine] at writes
    by_cases theirs : second = pid ∧ number = record
    · obtain ⟨rfl, rfl⟩ := theirs
      rw [if_pos ⟨rfl, rfl⟩]
      rcases lock with _ | mode
      · rfl
      · exact absurd ⟨first, different, .inl writes⟩ (free mode rfl)
    · rw [if_neg theirs]
      exact inv.exclusive first second number different writes

theorem seek (inv : KernelInv file kernel) (pid : P) (record : Nat) :
    KernelInv file (kernel.seek pid record) :=
  ⟨inv.exclusive, inv.content, inv.openSid, inv.unique, inv.stored, inv.once, inv.told, inv.past,
    inv.apart⟩

theorem leak (inv : KernelInv file kernel) (pid : P) (record : Nat) :
    KernelInv file (kernel.leak pid record) :=
  ⟨inv.exclusive, inv.content, inv.openSid, inv.unique, inv.stored, inv.once, inv.told, inv.past,
    inv.apart⟩

omit [DecidableEq P] in
theorem afterBookings_append (file : Nat → Record) (ledger : List Conn) (conn : Conn) (record number : Nat)
    (delta : Counts) (entered : conn.entered = some record) (booked : conn.delta = some delta) :
    afterBookings file (ledger ++ [conn]) number =
      if number = record then
        ⟨(afterBookings file ledger record).id, (afterBookings file ledger record).counts + delta⟩
      else afterBookings file ledger number := by
  by_cases same : number = record
  · subst same
    simp [afterBookings, deltas, entered, booked, add_assoc]
  · have other : ¬ record = number := Ne.symm same
    simp [afterBookings, deltas, entered, same, other]

omit [DecidableEq P] in
theorem store (inv : KernelInv file kernel) {pid : P} {fd record : Nat} {conn : Conn}
    {delta : Counts} (here : kernel.conns pid fd = some conn) (unbooked : ¬ kernel.Booked conn.sid)
    (entered : conn.entered = some record) (booked : conn.delta = some delta) :
    KernelInv file (kernel.store record
      ⟨(kernel.file record).id, (kernel.file record).counts + delta⟩ (some conn)) := by
  refine ⟨inv.exclusive, ?_, inv.openSid, inv.unique, ?_, ?_, ?_, ?_, inv.apart⟩
  · intro number
    simp only [Kernel.store, Option.toList_some, afterBookings_append file _ _ record number delta entered
      booked, Function.update_apply, ← inv.content]
  · intro found member
    rcases List.mem_append.mp member with earlier | last
    · exact inv.stored found earlier
    · obtain rfl := List.mem_singleton.mp last
      exact ⟨inv.openSid pid fd found here, by simp [entered], by simp [booked]⟩
  · simp only [Kernel.store, Option.toList_some, List.map_append, List.map_cons, List.map_nil]
    refine List.nodup_append.mpr ⟨inv.once, by simp, ?_⟩
    intro sid member other last
    obtain rfl := List.mem_singleton.mp last
    rintro rfl
    exact unbooked member
  · intro pid' fd' found present was
    have booked := inv.told pid' fd' found present was
    simp only [Kernel.Booked, Kernel.store, Option.toList_some, List.map_append, List.mem_append]
    exact .inl booked
  · intro gone member
    obtain ⟨bound, same⟩ := inv.past gone member
    refine ⟨bound, ?_⟩
    have different := inv.apart gone member pid fd conn here
    rw [← same]
    simp [Kernel.Booked, Kernel.store, different]

theorem acceptConn (inv : KernelInv file kernel) {pid : P} {fd : Nat} :
    KernelInv file (acceptConn kernel pid fd) := by
  have former : ∀ pid' fd' found, (Booking.acceptConn kernel pid fd).conns pid' fd' = some found →
      (pid' = pid ∧ fd' = fd ∧ found = ⟨kernel.nextSid, [], [.enterId]⟩) ∨
        kernel.conns pid' fd' = some found := by
    intro pid' fd' found present
    simp only [Booking.acceptConn, Kernel.setConn_conns] at present
    split_ifs at present with at_fd
    · exact .inl ⟨at_fd.1, at_fd.2, (Option.some.inj present).symm⟩
    · exact .inr present
  -- a new session has a number that no other had
  refine ⟨inv.exclusive, inv.content, ?_, ?_, ?_, inv.once, ?_, ?_, ?_⟩
  · intro pid' fd' found present
    rcases former pid' fd' found present with ⟨_, _, rfl⟩ | was
    · exact Nat.lt_succ_self _
    · exact Nat.lt_succ_of_lt (inv.openSid pid' fd' found was)
  · intro pid₁ fd₁ conn₁ pid₂ fd₂ conn₂ first second equal
    rcases former pid₁ fd₁ conn₁ first with ⟨rfl, rfl, rfl⟩ | was₁ <;>
      rcases former pid₂ fd₂ conn₂ second with ⟨rfl, rfl, rfl⟩ | was₂
    · exact ⟨rfl, rfl⟩
    · exact absurd (inv.openSid _ _ _ was₂) (by rw [← equal]; exact lt_irrefl _)
    · exact absurd (inv.openSid _ _ _ was₁) (by rw [equal]; exact lt_irrefl _)
    · exact inv.unique _ _ _ _ _ _ was₁ was₂ equal
  · intro found member
    obtain ⟨bound, rest⟩ := inv.stored found member
    exact ⟨Nat.lt_succ_of_lt bound, rest⟩
  · intro pid' fd' found present was
    rcases former pid' fd' found present with ⟨_, _, rfl⟩ | before
    · simp [Conn.Told] at was
    · exact inv.told pid' fd' found before was
  · intro gone member
    obtain ⟨bound, same⟩ := inv.past gone member
    exact ⟨Nat.lt_succ_of_lt bound, same⟩
  · intro gone member pid' fd' found present
    rcases former pid' fd' found present with ⟨_, _, rfl⟩ | before
    · exact Nat.ne_of_lt (inv.past gone member).1
    · exact inv.apart gone member pid' fd' found before

theorem exit (inv : KernelInv file kernel) (pid : P) : KernelInv file (kernel.exit pid) := by
  have former : ∀ pid' fd' found, (kernel.exit pid).conns pid' fd' = some found →
      kernel.conns pid' fd' = some found := by
    intro pid' fd' found present
    rw [Kernel.exit_conns] at present
    split_ifs at present
    exact present
  refine ⟨?_, inv.content, fun pid' fd' found present => inv.openSid _ _ _ (former _ _ _ present),
    fun pid₁ fd₁ conn₁ pid₂ fd₂ conn₂ first second =>
      inv.unique _ _ _ _ _ _ (former _ _ _ first) (former _ _ _ second),
    inv.stored, inv.once, fun pid' fd' found present => inv.told _ _ _ (former _ _ _ present),
    inv.past, fun gone member pid' fd' found present =>
      inv.apart gone member _ _ _ (former _ _ _ present)⟩
  intro first second record different writes
  simp only [Kernel.exit_locks] at writes ⊢
  split_ifs at writes ⊢
  · rfl
  · exact inv.exclusive first second record different writes

end KernelInv

end SPHomework.Booking
