import SPHomework.Booking.Session

set_option autoImplicit false

/-!
# What each call of a handler does

One rule for each system call: from `At` before it, `At` after it, with the
promise to the other processes kept.
-/

namespace SPHomework.Booking

open Lib

variable {P : Type} [DecidableEq P]

-- What a step of one process keeps for the others.
def Promise (file : Nat → Record) (pid : P) (before after : Kernel P) : Prop :=
  (∀ other, other ≠ pid → Relies file other before after) ∧
    (KernelInv file before → KernelInv file after)

omit [DecidableEq P] in
theorem Promise.refl (file : Nat → Record) (pid : P) (kernel : Kernel P) : Promise file pid kernel kernel :=
  ⟨fun other _ => Relies.refl file other kernel, id⟩

omit [DecidableEq P] in
theorem Promise.private {file : Nat → Record} {pid : P} {before after : Kernel P}
    (content : after.file = before.file) (ledger : after.ledger = before.ledger)
    (own : ∀ other, other ≠ pid → after.locks other = before.locks other ∧
      after.offset other = before.offset other ∧ after.conns other = before.conns other ∧
      after.leaked other = before.leaked other)
    (inv : KernelInv file before → KernelInv file after) : Promise file pid before after := by
  refine ⟨fun other different => ?_, inv⟩
  obtain ⟨locks, offset, conns, leaked⟩ := own other different
  exact ⟨⟨locks, conns, leaked, fun record _ => by rw [content],
    fun fd conn _ => by rw [Kernel.Booked, Kernel.Booked, ledger], inv⟩, offset⟩

theorem Promise.setConn {file : Nat → Record} {pid : P} {kernel : Kernel P} {fd : Nat}
    {conn : Option Conn}
    (inv : KernelInv file kernel → KernelInv file (kernel.setConn pid fd conn)) :
    Promise file pid kernel (kernel.setConn pid fd conn) :=
  Promise.private rfl rfl
    (fun _ different => ⟨rfl, rfl, Function.update_of_ne different _ _, rfl⟩) inv

theorem Promise.setLock {file : Nat → Record} {pid : P} {kernel : Kernel P} {record : Nat}
    {lock : Option LockMode} (free : ∀ mode, lock = some mode → ¬ Conflict kernel pid mode record) :
    Promise file pid kernel (kernel.setLock pid record lock) :=
  Promise.private rfl rfl
    (fun _ different => ⟨Function.update_of_ne different _ _, rfl, rfl, rfl⟩)
    fun inv => inv.setLock free

theorem Promise.seek {file : Nat → Record} {pid : P} {kernel : Kernel P} {record : Nat} :
    Promise file pid kernel (kernel.seek pid record) :=
  Promise.private rfl rfl
    (fun _ different => ⟨rfl, Function.update_of_ne different _ _, rfl, rfl⟩)
    fun inv => inv.seek pid record

theorem Promise.store {file : Nat → Record} {pid : P} {kernel : Kernel P} {fd record : Nat}
    {conn : Conn} {delta : Counts} (holds : KernelInv file kernel)
    (here : kernel.conns pid fd = some conn) (held : kernel.locks pid record = some .write)
    (unbooked : ¬ kernel.Booked conn.sid) (entered : conn.entered = some record)
    (booked : conn.delta = some delta) :
    Promise file pid kernel ((kernel.store record
      ⟨(kernel.file record).id, (kernel.file record).counts + delta⟩ (some conn)).seek pid (record + 1)) := by
  have inv := holds.store here unbooked entered booked
  refine ⟨fun other different =>
    ⟨⟨rfl, rfl, rfl, ?_, ?_, fun _ => inv.seek pid _⟩, Function.update_of_ne different _ _⟩,
    fun _ => inv.seek pid _⟩
  -- a record that another process has locked is not the one that is written
  · intro number locked
    refine Function.update_of_ne ?_ _ _
    rintro rfl
    exact locked (holds.exclusive pid other number different.symm held)
  · intro number found present
    have elsewhere : found.sid ≠ conn.sid := fun same =>
      different (holds.unique _ _ _ _ _ _ present here same).1
    simp [Kernel.Booked, Kernel.store, Kernel.seek, elsewhere]

variable {visit : Visit P} {progress : Progress} {conn : Option Conn} {found : Conn}
  {kernel later : Kernel P} {memory : Memory}

namespace At

theorem seek (at_ : At visit progress conn kernel memory) (record : Nat) :
    At visit progress conn (kernel.seek visit.pid record) memory :=
  at_.stable ⟨rfl, rfl, rfl, fun _ _ => rfl, fun _ _ _ => Iff.rfl, fun inv => inv.seek visit.pid record⟩

theorem promise_setConn (at_ : At visit progress (some found) kernel memory) {conn' : Conn}
    (continues : found.Continues conn') (told : conn'.Told → progress.booked) :
    Promise visit.file visit.pid kernel (kernel.setConn visit.pid visit.fd (some conn')) :=
  Promise.setConn fun inv => inv.setConn at_.here continues.sid
    fun was => (at_.booked found rfl).mpr (told was)

theorem setConn (at_ : At visit progress (some found) kernel memory) {conn' : Conn}
    (continues : found.Continues conn') (told : conn'.Told → progress.booked) :
    At visit progress (some conn') (kernel.setConn visit.pid visit.fd (some conn')) memory := by
  refine at_.reconnect ((at_.promise_setConn continues told).2 at_.inv) (by simp)
    (fun other different => by simp [different]) rfl rfl rfl rfl (fun _ => rfl) ?_ ?_
  · rintro _ ⟨⟩
    rw [continues.sid]
    exact at_.booked found rfl
  · rintro _ ⟨⟩ stage
    obtain ⟨own, entered, shown⟩ := at_.session found rfl stage
    exact ⟨own, continues.entered entered, shown.imp_left fun was => was.continues continues⟩

theorem promise_endConn (at_ : At visit progress (some found) kernel memory)
    (told : progress.booked → found.Told) :
    Promise visit.file visit.pid kernel (kernel.endConn visit.pid visit.fd found) :=
  Promise.private rfl rfl (fun _ different => ⟨rfl, rfl, Function.update_of_ne different _ _, rfl⟩)
    fun inv => inv.endConn at_.here fun was => told ((at_.booked found rfl).mp was)

theorem endConn (at_ : At visit progress (some found) kernel memory)
    (told : progress.booked → found.Told) :
    At visit progress none (kernel.endConn visit.pid visit.fd found) memory :=
  at_.reconnect ((at_.promise_endConn told).2 at_.inv) (by simp [Kernel.endConn])
    (fun other different => by simp [Kernel.endConn, different]) rfl rfl rfl rfl (by simp)
    (fun _ absent => absurd absent (by simp)) (fun _ absent => absurd absent (by simp))

theorem promise_grant {mode : LockMode} {record : Nat}
    (free : ¬ Conflict kernel visit.pid mode record) :
    Promise visit.file visit.pid kernel (kernel.grant visit.pid visit.fd mode record) := by
  have locked : Promise visit.file visit.pid kernel (kernel.setLock visit.pid record (some mode)) :=
    Promise.setLock fun _ same => Option.some.inj same ▸ free
  unfold Kernel.grant
  -- a leaked lock is also counted, but that is this process's own affair
  split_ifs
  · refine Promise.private rfl rfl (fun other different => ⟨?_, rfl, rfl, ?_⟩)
      fun inv => (locked.2 inv).leak visit.pid record
    · exact Function.update_of_ne different _ _
    · exact Function.update_of_ne different _ _
  · exact locked

-- A reader takes the lock: for its connection, or, if that is closed, for nobody.
theorem grantRead {booked : Prop} (at_ : At visit ⟨none, none, booked⟩ conn kernel memory)
    (reader : visit.kind = .readServer) {record : Nat}
    (free : ¬ Conflict kernel visit.pid .read record)
    (fresh : (memory.requestP visit.fd).stage = 0) :
    At visit ⟨conn.map fun _ => record, conn.map fun _ => record, booked⟩ conn
      (kernel.grant visit.pid visit.fd .read record)
      (setReadLock record (memory.readLock record + 1) memory) := by
  refine at_.change ((promise_grant free).2 at_.inv) (by simp) (by simp) (by simp)
    (fun writer => absurd (reader.symm.trans writer) (by simp)) (fun _ _ => rfl)
    (fun _ _ member => member) rfl (fun number => ?_)
    (fun _ _ stage => absurd (fresh.symm.trans stage) zero_ne_one)
  have tally := at_.tally number
  rw [reader] at tally ⊢
  by_cases same : number = record
  · subst same
    have granted := tally.grantRead
    rcases conn with _ | found
    · simpa [setReadLock, at_.here, ownedBy, add_assoc] using granted
    · simpa [setReadLock, at_.here, ownedBy] using granted
  · have other : ¬ record = number := Ne.symm same
    rcases conn with _ | found <;>
      simpa [setReadLock, at_.here, ownedBy, same, other] using tally

theorem grantWrite {booked : Prop} (at_ : At visit ⟨none, none, booked⟩ (some found) kernel memory)
    (writer : visit.kind = .writeServer) {record : Nat}
    (free : ¬ Conflict kernel visit.pid .write record) (unlocked : memory.writeLock record = false)
    (fresh : (memory.requestP visit.fd).stage = 0) :
    At visit ⟨some record, some record, booked⟩ (some found)
      (kernel.grant visit.pid visit.fd .write record) (setWriteLock record true memory) := by
  refine at_.change ((promise_grant free).2 at_.inv) (by simp) (by simp) (by simp)
    (fun _ => ?_) (fun _ _ => rfl) (fun _ _ member => member) rfl (fun number => ?_)
    (fun _ _ stage => absurd (fresh.symm.trans stage) zero_ne_one)
  · funext number
    simp [at_.here]
  · have tally := at_.tally number
    rw [writer] at tally ⊢
    by_cases same : number = record
    · subst same
      rw [unlocked] at tally
      simpa [setWriteLock, at_.here, ownedBy] using tally.grantWrite
    · have other : ¬ record = number := Ne.symm same
      simpa [setWriteLock, at_.here, ownedBy, same, other] using tally

theorem promise_unlock (kernel : Kernel P) (record : Nat) :
    Promise visit.file visit.pid kernel (kernel.setLock visit.pid record none) :=
  Promise.setLock (by simp)

theorem unlock {booked : Prop} {record : Nat}
    (at_ : At visit ⟨some record, none, booked⟩ none kernel memory)
    (last : sharers visit kernel record = 0) :
    At visit ⟨none, none, booked⟩ none (kernel.setLock visit.pid record none) memory := by
  refine at_.change ((promise_unlock kernel record).2 at_.inv) rfl rfl rfl (fun _ => rfl) (fun _ _ => rfl)
    (fun _ _ member => member) rfl (fun number => ?_) (fun _ absent => absurd absent (by simp))
  have tally := at_.tally number
  by_cases same : number = record
  · subst same
    simp only [ownedBy, if_pos] at tally
    simpa [ownedBy] using tally.unlock last
  · have other : ¬ record = number := Ne.symm same
    simpa [ownedBy, same, other] using tally

theorem store {record : Nat} {counted : Option Nat} {delta : Counts}
    (at_ : At visit ⟨some record, counted, False⟩ (some found) kernel memory)
    (writer : visit.kind = .writeServer) (entered : found.entered = some record)
    (delta_eq : found.delta = some delta) :
    let after := (kernel.store record
      ⟨(kernel.file record).id, (kernel.file record).counts + delta⟩ (some found)).seek visit.pid
        (record + 1)
    Promise visit.file visit.pid kernel after ∧
      At visit ⟨some record, counted, True⟩ (some found) after memory := by
  intro after
  have held := at_.own_locked record rfl
  rw [writer] at held
  have unbooked : ¬ kernel.Booked found.sid := (at_.booked found rfl).not.mpr id
  have promise : Promise visit.file visit.pid kernel after :=
    Promise.store at_.inv at_.here held unbooked entered delta_eq
  refine ⟨promise, promise.2 at_.inv, at_.here, at_.usable, ?_, at_.kept, ?_, ?_, at_.tally, at_.clean,
    at_.master, at_.ready, at_.bound, at_.apart, at_.distinct⟩
  · intro other different before present
    have here : kernel.conns visit.pid other = some before := present
    refine (at_.slots other different before here).stable ?_ fun stage => Function.update_of_ne ?_ _ _
    · have elsewhere : before.sid ≠ found.sid := fun same =>
        different (at_.inv.unique _ _ _ _ _ _ here at_.here same).2
      simp [Kernel.Booked, Kernel.store, Kernel.seek, elsewhere, after]
    · intro same
      have sole := (at_.tally record).sole writer
      have positive := others_pos visit.host.maxfd visit.fd other _ _ record
        (at_.usable other (by simp [here])).2.1 different ⟨Option.isSome_iff_exists.mpr ⟨before, here⟩, stage, same⟩
      rw [at_.others_eq] at positive
      simp only [ownedBy, if_pos] at sole
      omega
  · rintro _ ⟨⟩
    simp [Kernel.Booked, Kernel.store, Kernel.seek, after]
  · rintro _ ⟨⟩ stage
    obtain ⟨own, entered, _⟩ := at_.session found rfl stage
    exact ⟨own, entered, .inr ⟨writer, trivial⟩⟩

end At

variable [Fintype P]

def Visit.party (visit : Visit P) : Party (Kernel P) Memory Call Answer where
  exec before call answer after :=
    ∃ choice, before.exec visit.pid visit.fd choice call = some (answer, after)
  rely := Relies visit.file visit.pid
  guar := Promise visit.file visit.pid
  seen := Covered visit.host visit.kind visit.pid
  rely_refl := Relies.refl visit.file visit.pid
  rely_trans _ _ _ := Relies.trans

variable {α : Type} {post : Kernel P → Memory → α → Prop}

namespace At

def Fixed (progress : Progress) (before after : Kernel P) : Prop :=
  ∀ record, progress.own = some record → after.file record = before.file record

omit [DecidableEq P] [Fintype P] in
theorem fixed (at_ : At visit progress conn later memory) (moved : Keeps visit.file visit.pid later kernel)
    {before : Kernel P} (same : Fixed progress before later) : Fixed progress before kernel := by
  intro record own
  rw [← same record own]
  refine moved.content record ?_
  rw [at_.own_locked record own]
  exact Option.some_ne_none _

-- A call from `At`: it is enough to say what the call does there.
theorem call (at_ : At visit progress conn kernel memory) {request : Call}
    {next : Answer request → Prog Memory Call Answer α}
    (step : ∀ later, At visit progress conn later memory → Fixed progress kernel later →
      ∀ choice answer after, later.exec visit.pid visit.fd choice request = some (answer, after) →
        Promise visit.file visit.pid later after ∧ visit.party.Safe post after (next answer)) :
    visit.party.Safe post kernel (.call memory request next) :=
  Party.Safe.call (fun later => At visit progress conn later memory ∧ Fixed progress kernel later)
    ⟨at_, fun _ _ => rfl⟩
    (fun _ _ holds moved => ⟨holds.1.stable moved.toKeeps, holds.1.fixed moved.toKeeps holds.2⟩)
    fun later holds => ⟨holds.1.covered, fun answer after ⟨choice, executed⟩ =>
      step later holds.1 holds.2 choice answer after executed⟩

theorem callThere (at_ : At visit progress conn kernel memory) {record : Nat} {request : Call}
    (position : kernel.offset visit.pid = record) {next : Answer request → Prog Memory Call Answer α}
    (step : ∀ later, At visit progress conn later memory → Fixed progress kernel later →
      later.offset visit.pid = record →
      ∀ choice answer after, later.exec visit.pid visit.fd choice request = some (answer, after) →
        Promise visit.file visit.pid later after ∧ visit.party.Safe post after (next answer)) :
    visit.party.Safe post kernel (.call memory request next) :=
  Party.Safe.call (fun later => At visit progress conn later memory ∧ Fixed progress kernel later ∧
      later.offset visit.pid = record)
    ⟨at_, fun _ _ => rfl, position⟩
    (fun _ _ holds moved => ⟨holds.1.stable moved.toKeeps, holds.1.fixed moved.toKeeps holds.2.1,
      moved.offset.trans holds.2.2⟩)
    fun later holds => ⟨holds.1.covered, fun answer after ⟨choice, executed⟩ =>
      step later holds.1 holds.2.1 holds.2.2 choice answer after executed⟩

theorem done (at_ : At visit progress conn kernel memory) {value : α}
    (result : ∀ later, At visit progress conn later memory → Fixed progress kernel later →
      post later memory value) :
    visit.party.Safe post kernel (.done memory value) :=
  Party.Safe.done (fun later => At visit progress conn later memory ∧ Fixed progress kernel later)
    ⟨at_, fun _ _ => rfl⟩
    (fun _ _ holds moved => ⟨holds.1.stable moved.toKeeps, holds.1.fixed moved.toKeeps holds.2⟩)
    fun later holds => ⟨holds.1.covered, result later holds.1 holds.2⟩

theorem halt (at_ : At visit progress conn kernel memory) :
    visit.party.Safe post kernel (.halt memory) :=
  fun _ moved => (at_.stable moved.toKeeps).covered

end At

end SPHomework.Booking
