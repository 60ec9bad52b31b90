import Mathlib.Data.Finset.Card
import SPHomework.Booking.Kernel

set_option autoImplicit false

/-!
# The sessions of one server

How the slots, the two arrays and the locks of a process fit its open
connections: `Idle` between two handlers, `At` inside the handler of one
descriptor.
-/

namespace SPHomework.Booking

open Lib

def ServerKind.mode : ServerKind → LockMode
  | .readServer => .read
  | .writeServer => .write

def snapshot (kind : ServerKind) (counts : Counts) : Message :=
  match kind with
  | .readServer => .bookings counts
  | .writeServer => .prompt counts

def Active (conns : Nat → Option Conn) (requests : Nat → Request) (record fd : Nat) : Prop :=
  (conns fd).isSome ∧ (requests fd).stage = 1 ∧ (requests fd).id = record

instance (conns : Nat → Option Conn) (requests : Nat → Request) (record fd : Nat) :
    Decidable (Active conns requests record fd) :=
  inferInstanceAs (Decidable (_ ∧ _))

def activeCount (maxfd : Nat) (conns : Nat → Option Conn) (requests : Nat → Request)
    (record : Nat) : Nat :=
  ((Finset.range maxfd).filter (Active conns requests record)).card

def others (maxfd fd : Nat) (conns : Nat → Option Conn) (requests : Nat → Request)
    (record : Nat) : Nat :=
  (((Finset.range maxfd).erase fd).filter (Active conns requests record)).card

def ownedBy (own : Option Nat) (record : Nat) : Nat := if own = some record then 1 else 0

theorem activeCount_eq (maxfd fd : Nat) (conns : Nat → Option Conn) (requests : Nat → Request)
    (record : Nat) (bound : fd < maxfd) :
    activeCount maxfd conns requests record =
      others maxfd fd conns requests record + if Active conns requests record fd then 1 else 0 := by
  have member : fd ∈ Finset.range maxfd := Finset.mem_range.mpr bound
  unfold activeCount others
  rw [← Finset.insert_erase member, Finset.filter_insert, Finset.erase_insert_eq_erase,
    Finset.erase_idem]
  split_ifs with active
  · rw [Finset.card_insert_of_notMem (by simp)]
  · rfl

theorem others_congr (maxfd fd : Nat) {conns conns' : Nat → Option Conn}
    {requests requests' : Nat → Request} (record : Nat)
    (same : ∀ other, other ≠ fd → conns' other = conns other ∧ requests' other = requests other) :
    others maxfd fd conns' requests' record = others maxfd fd conns requests record := by
  unfold others
  congr 1
  refine Finset.filter_congr fun other member => ?_
  obtain ⟨sameConn, sameRequest⟩ := same other (Finset.ne_of_mem_erase member)
  rw [Active, Active, sameConn, sameRequest]

theorem others_pos (maxfd fd other : Nat) (conns : Nat → Option Conn) (requests : Nat → Request)
    (record : Nat) (bound : other < maxfd) (different : other ≠ fd)
    (active : Active conns requests record other) :
    0 < others maxfd fd conns requests record :=
  Finset.card_pos.mpr ⟨other, by simp [bound, different, active]⟩

theorem others_two (maxfd fd first second : Nat) (conns : Nat → Option Conn)
    (requests : Nat → Request) (record : Nat) (bound : first < maxfd) (bound' : second < maxfd)
    (apart : first ≠ fd) (apart' : second ≠ fd) (different : first ≠ second)
    (active : Active conns requests record first) (active' : Active conns requests record second) :
    1 < others maxfd fd conns requests record :=
  Finset.one_lt_card.mpr ⟨first, by simp [bound, apart, active], second,
    by simp [bound', apart', active'], different⟩

/-- The lock and the array entries of one record, by the number of sessions that hold the lock
and the number that the arrays count. -/
structure Tally (kind : ServerKind) (lock : Option LockMode) (readLock : Int) (writeLock : Bool)
    (held counted : Nat) : Prop where
  lock : lock = if held = 0 then none else some kind.mode
  readLock : readLock = if kind = .readServer then counted else 0
  writeLock : writeLock = decide (kind = .writeServer ∧ counted ≠ 0)
  sole : kind = .writeServer → held ≤ 1

namespace Tally

theorem grantRead {lock : Option LockMode} {readLock : Int} {writeLock : Bool} {held counted : Nat}
    (tally : Tally .readServer lock readLock writeLock held counted) :
    Tally .readServer (some .read) (readLock + 1) writeLock (held + 1) (counted + 1) := by
  refine ⟨rfl, ?_, ?_, nofun⟩
  · simp [tally.readLock]
  · simp [tally.writeLock]

theorem grantWrite {lock : Option LockMode} {readLock : Int} {count : Nat}
    (tally : Tally .writeServer lock readLock false count count) :
    Tally .writeServer (some .write) readLock true (count + 1) (count + 1) := by
  have none_counted : count = 0 := by simpa using tally.writeLock
  refine ⟨rfl, ?_, ?_, ?_⟩
  · simp [tally.readLock]
  · simp
  · simp [none_counted]

theorem uncountRead {lock : Option LockMode} {readLock : Int} {writeLock : Bool} {held counted : Nat}
    (tally : Tally .readServer lock readLock writeLock held (counted + 1)) :
    Tally .readServer lock (readLock - 1) writeLock held counted := by
  refine ⟨tally.lock, ?_, ?_, nofun⟩
  · simp [tally.readLock]
  · simp [tally.writeLock]

theorem uncountWrite {lock : Option LockMode} {readLock : Int} {writeLock : Bool} {count counted : Nat}
    (tally : Tally .writeServer lock readLock writeLock (count + 1) counted) :
    Tally .writeServer lock readLock false (count + 1) count := by
  have sole := tally.sole rfl
  refine ⟨tally.lock, by simp [tally.readLock], ?_, tally.sole⟩
  simp only [true_and, decide_eq_false_iff_not, not_not, Bool.false_eq]
  omega

theorem unlock {kind : ServerKind} {lock : Option LockMode} {readLock : Int} {writeLock : Bool}
    {held counted : Nat} (tally : Tally kind lock readLock writeLock (held + 1) counted)
    (last : held = 0) : Tally kind none readLock writeLock held counted :=
  ⟨by simp [last], tally.readLock, tally.writeLock, by simp [last]⟩

theorem leave {kind : ServerKind} {lock : Option LockMode} {readLock : Int} {writeLock : Bool}
    {held counted : Nat} (tally : Tally kind lock readLock writeLock (held + 1) counted)
    (more : held ≠ 0) : Tally kind lock readLock writeLock held counted :=
  ⟨by simpa [more] using tally.lock, tally.readLock, tally.writeLock,
    fun writer => Nat.le_of_succ_le (tally.sole writer)⟩

end Tally

/-- The client entered the id of a record, and was then shown its counts as they are in the file. -/
structure Shown (kind : ServerKind) (file : Nat → Record) (conn : Conn) (record : Nat) : Prop where
  entered : conn.entered = some record
  shown : conn.shown[1]? = some (snapshot kind (file record).counts)

-- The same session later: more received, more shown.
structure Conn.Continues (conn later : Conn) : Prop where
  sid : later.sid = conn.sid
  received : conn.received <+: later.received
  shown : conn.shown <+: later.shown

theorem Conn.Continues.entered {conn later : Conn} (continues : conn.Continues later) {record : Nat}
    (entered : conn.entered = some record) : later.entered = some record := by
  obtain ⟨more, received⟩ := continues.received
  rw [Conn.entered, ← received]
  rw [Conn.entered] at entered
  cases first : conn.received with
  | nil => simp [first] at entered
  | cons chunk rest => simpa [first] using entered

theorem Shown.continues {kind : ServerKind} {file : Nat → Record} {conn later : Conn} {record : Nat}
    (shown : Shown kind file conn record) (continues : conn.Continues later) :
    Shown kind file later record := by
  refine ⟨continues.entered shown.entered, ?_⟩
  obtain ⟨more, was⟩ := continues.shown
  rw [← was, List.getElem?_append_left (List.getElem?_eq_some_iff.mp shown.shown).1]
  exact shown.shown

variable {P : Type}

-- An open connection whose handler is not running.
structure SlotOk (kind : ServerKind) (kernel : Kernel P) (request : Request) (fd : Nat) (conn : Conn) :
    Prop where
  connFd : request.connFd = fd
  unbooked : ¬ kernel.Booked conn.sid
  stage : (request.stage = 0 ∧ conn.received = [] ∧ conn.shown = [.enterId]) ∨
    (request.stage = 1 ∧ Shown kind kernel.file conn request.id ∧
      (kind = .writeServer → conn.received.length = 1))

def Usable (host : Host) (fd : Nat) : Prop :=
  3 ≤ fd ∧ fd < host.maxfd ∧ fd ≠ host.fileFd ∧ fd ≠ host.listenFd

structure Keeps (file : Nat → Record) (pid : P) (before after : Kernel P) : Prop where
  locks : after.locks pid = before.locks pid
  conns : after.conns pid = before.conns pid
  leaked : after.leaked pid = before.leaked pid
  content : ∀ record, before.locks pid record ≠ none → after.file record = before.file record
  booked : ∀ fd conn, before.conns pid fd = some conn →
    (after.Booked conn.sid ↔ before.Booked conn.sid)
  inv : KernelInv file before → KernelInv file after

/-- What one process relies on while others take steps. -/
structure Relies (file : Nat → Record) (pid : P) (before after : Kernel P) : Prop
    extends Keeps file pid before after where
  offset : after.offset pid = before.offset pid

theorem Relies.refl (file : Nat → Record) (pid : P) (kernel : Kernel P) :
    Relies file pid kernel kernel :=
  ⟨⟨rfl, rfl, rfl, fun _ _ => rfl, fun _ _ _ => Iff.rfl, id⟩, rfl⟩

theorem Relies.trans {file : Nat → Record} {pid : P} {first second third : Kernel P}
    (before : Relies file pid first second) (after : Relies file pid second third) :
    Relies file pid first third where
  locks := after.locks.trans before.locks
  offset := after.offset.trans before.offset
  conns := after.conns.trans before.conns
  leaked := after.leaked.trans before.leaked
  content record held :=
    (after.content record (before.locks ▸ held)).trans (before.content record held)
  booked fd conn here :=
    (after.booked fd conn (before.conns ▸ here)).trans (before.booked fd conn here)
  inv := after.inv ∘ before.inv

/-- A process between two handlers. -/
structure Idle (file : Nat → Record) (host : Host) (kind : ServerKind) (pid : P) (working : List Nat)
    (kernel : Kernel P) (memory : Memory) : Prop where
  inv : KernelInv file kernel
  usable : ∀ fd, (kernel.conns pid fd).isSome → Usable host fd
  slots : ∀ fd conn, kernel.conns pid fd = some conn →
    SlotOk kind kernel (memory.requestP fd) fd conn
  tally : ∀ record, Tally kind (kernel.locks pid record) (memory.readLock record)
    (memory.writeLock record)
    (activeCount host.maxfd (kernel.conns pid) memory.requestP record + kernel.leaked pid record)
    (activeCount host.maxfd (kernel.conns pid) memory.requestP record + kernel.leaked pid record)
  clean : kind = .writeServer → ∀ record, kernel.leaked pid record = 0
  master : ∀ fd, memory.masterSet fd = true → fd = host.listenFd ∨ (kernel.conns pid fd).isSome
  ready : ∀ fd ∈ working, fd = host.listenFd ∨ (kernel.conns pid fd).isSome
  distinct : working.Nodup

/-- What the handler of `fd` has done so far: the record whose lock it holds, the record that the
arrays count for it, and whether its command is stored. -/
structure Progress where
  own : Option Nat
  counted : Option Nat
  booked : Prop

/-- One run of the loop body: the process, the descriptor, those still to visit, and the
connections and slots as it found them. -/
structure Visit (P : Type) where
  file : Nat → Record
  host : Host
  kind : ServerKind
  pid : P
  fd : Nat
  working : List Nat
  conns : Nat → Option Conn
  requests : Nat → Request

/-- A process inside the handler of a descriptor, whose connection is now `conn`. -/
structure At (visit : Visit P) (progress : Progress) (conn : Option Conn) (kernel : Kernel P)
    (memory : Memory) : Prop where
  inv : KernelInv visit.file kernel
  here : kernel.conns visit.pid visit.fd = conn
  usable : ∀ other, (kernel.conns visit.pid other).isSome → Usable visit.host other
  slots : ∀ other, other ≠ visit.fd → ∀ found, kernel.conns visit.pid other = some found →
    SlotOk visit.kind kernel (memory.requestP other) other found
  kept : ∀ other, other ≠ visit.fd →
    kernel.conns visit.pid other = visit.conns other ∧ memory.requestP other = visit.requests other
  booked : ∀ found, conn = some found → (kernel.Booked found.sid ↔ progress.booked)
  session : ∀ found, conn = some found → (memory.requestP visit.fd).stage = 1 →
    progress.own = some (memory.requestP visit.fd).id ∧
      found.entered = some (memory.requestP visit.fd).id ∧
      (Shown visit.kind kernel.file found (memory.requestP visit.fd).id ∨
        visit.kind = .writeServer ∧ progress.booked)
  tally : ∀ record, Tally visit.kind (kernel.locks visit.pid record) (memory.readLock record)
    (memory.writeLock record)
    (others visit.host.maxfd visit.fd visit.conns visit.requests record +
      kernel.leaked visit.pid record + ownedBy progress.own record)
    (others visit.host.maxfd visit.fd visit.conns visit.requests record +
      kernel.leaked visit.pid record + ownedBy progress.counted record)
  clean : visit.kind = .writeServer → ∀ record, kernel.leaked visit.pid record = 0
  master : ∀ other, other ≠ visit.fd → memory.masterSet other = true →
    other = visit.host.listenFd ∨ (kernel.conns visit.pid other).isSome
  ready : ∀ other ∈ visit.working,
    other = visit.host.listenFd ∨ (kernel.conns visit.pid other).isSome
  bound : visit.fd < visit.host.maxfd
  apart : visit.fd ∉ visit.working
  distinct : visit.working.Nodup

-- What clients may rely on at any time.
structure Covered (host : Host) (kind : ServerKind) (pid : P) (kernel : Kernel P) (memory : Memory) :
    Prop where
  locked : ∀ fd record, Active (kernel.conns pid) memory.requestP record fd →
    kernel.locks pid record = some kind.mode
  shown : ∀ fd conn, kernel.conns pid fd = some conn → (memory.requestP fd).stage = 1 →
    conn.entered = some (memory.requestP fd).id ∧
      (Shown kind kernel.file conn (memory.requestP fd).id ∨
        kind = .writeServer ∧ kernel.Booked conn.sid)
  sole : kind = .writeServer → ∀ fd other record,
    Active (kernel.conns pid) memory.requestP record fd →
    Active (kernel.conns pid) memory.requestP record other → fd = other

variable {file : Nat → Record} {host : Host} {kind : ServerKind} {pid : P} {fd : Nat}
  {working : List Nat} {visit : Visit P} {progress : Progress} {conn : Option Conn}
  {kernel later : Kernel P} {memory : Memory}

theorem SlotOk.stable {request : Request} {found : Conn} (ok : SlotOk kind kernel request fd found)
    (booked : later.Booked found.sid ↔ kernel.Booked found.sid)
    (content : request.stage = 1 → later.file request.id = kernel.file request.id) :
    SlotOk kind later request fd found := by
  refine ⟨ok.connFd, booked.not.mpr ok.unbooked, ?_⟩
  rcases ok.stage with fresh | ⟨stage, shown, writer⟩
  · exact .inl fresh
  · exact .inr ⟨stage, ⟨shown.entered, by rw [content stage]; exact shown.shown⟩, writer⟩

namespace At

theorem others_eq (at_ : At visit progress conn kernel memory) (record : Nat) :
    others visit.host.maxfd visit.fd (kernel.conns visit.pid) memory.requestP record =
      others visit.host.maxfd visit.fd visit.conns visit.requests record :=
  others_congr visit.host.maxfd visit.fd record at_.kept

theorem owns (at_ : At visit progress conn kernel memory) (record : Nat)
    (active : Active (kernel.conns visit.pid) memory.requestP record visit.fd) :
    progress.own = some record := by
  obtain ⟨found, here⟩ := Option.isSome_iff_exists.mp active.1
  rw [(at_.session found (at_.here.symm.trans here) active.2.1).1, active.2.2]

theorem own_locked (at_ : At visit progress conn kernel memory) (record : Nat)
    (own : progress.own = some record) : kernel.locks visit.pid record = some visit.kind.mode := by
  have held := (at_.tally record).lock
  simpa [ownedBy, own] using held

theorem locked (at_ : At visit progress conn kernel memory) (record other : Nat)
    (active : Active (kernel.conns visit.pid) memory.requestP record other) :
    kernel.locks visit.pid record = some visit.kind.mode := by
  by_cases same : other = visit.fd
  · exact at_.own_locked record (at_.owns record (same ▸ active))
  · have positive := others_pos visit.host.maxfd visit.fd other _ _ record
      (at_.usable other active.1).2.1 same active
    rw [at_.others_eq] at positive
    rw [(at_.tally record).lock, if_neg (by omega)]

theorem sole (at_ : At visit progress conn kernel memory) (writer : visit.kind = .writeServer)
    (record first second : Nat)
    (active : Active (kernel.conns visit.pid) memory.requestP record first)
    (active' : Active (kernel.conns visit.pid) memory.requestP record second) : first = second := by
  have most := (at_.tally record).sole writer
  rw [← at_.others_eq] at most
  have bound := (at_.usable first active.1).2.1
  have bound' := (at_.usable second active'.1).2.1
  -- the tally leaves room for one session, so the second has nowhere to be
  by_contra different
  by_cases same : first = visit.fd
  · have own := at_.owns record (same ▸ active)
    have more := others_pos visit.host.maxfd visit.fd second _ _ record bound'
      (fun equal => different (same.trans equal.symm)) active'
    simp only [ownedBy, own, if_pos] at most
    omega
  · by_cases same' : second = visit.fd
    · have own := at_.owns record (same' ▸ active')
      have more := others_pos visit.host.maxfd visit.fd first _ _ record bound same active
      simp only [ownedBy, own, if_pos] at most
      omega
    · have two := others_two visit.host.maxfd visit.fd first second _ _ record bound bound' same same'
        different active active'
      omega

theorem covered (at_ : At visit progress conn kernel memory) :
    Covered visit.host visit.kind visit.pid kernel memory := by
  refine ⟨fun other record active => at_.locked record other active, ?_,
    fun writer first second record => at_.sole writer record first second⟩
  intro other found here stage
  by_cases same : other = visit.fd
  · subst same
    obtain ⟨_, entered, shown⟩ := at_.session found (at_.here.symm.trans here) stage
    refine ⟨entered, shown.imp_right fun told => ⟨told.1, ?_⟩⟩
    exact (at_.booked found (at_.here.symm.trans here)).mpr told.2
  · rcases (at_.slots other same found here).stage with fresh | ⟨_, shown, _⟩
    · exact absurd (fresh.1.symm.trans stage) zero_ne_one
    · exact ⟨shown.entered, .inl shown⟩

theorem stable (at_ : At visit progress conn kernel memory)
    (moved : Keeps visit.file visit.pid kernel later) : At visit progress conn later memory := by
  -- the lock of this process keeps the others from writing the record
  have content : ∀ other, (kernel.conns visit.pid other).isSome → (memory.requestP other).stage = 1 →
      later.file (memory.requestP other).id = kernel.file (memory.requestP other).id := by
    intro other present stage
    refine moved.content _ ?_
    rw [at_.locked _ other ⟨present, stage, rfl⟩]
    exact Option.some_ne_none _
  refine ⟨moved.inv at_.inv, by rw [moved.conns]; exact at_.here, by rw [moved.conns]; exact at_.usable,
    ?_, by rw [moved.conns]; exact at_.kept, ?_, ?_, ?_, ?_, by rw [moved.conns]; exact at_.master,
    by rw [moved.conns]; exact at_.ready, at_.bound, at_.apart, at_.distinct⟩
  · intro other different found here
    rw [moved.conns] at here
    exact (at_.slots other different found here).stable (moved.booked other found here)
      (content other (by simp [here]))
  · intro found here
    rw [moved.booked visit.fd found (at_.here.trans here)]
    exact at_.booked found here
  · intro found here stage
    obtain ⟨own, entered, shown⟩ := at_.session found here stage
    refine ⟨own, entered, shown.imp_left fun was => ⟨was.entered, ?_⟩⟩
    rw [content visit.fd (by simp [at_.here, here]) stage]
    exact was.shown
  · rw [moved.leaked, moved.locks]
    exact at_.tally
  · rw [moved.leaked]
    exact at_.clean

theorem booked_of_told {found : Conn} (at_ : At visit progress (some found) kernel memory)
    (told : found.Told) : progress.booked :=
  (at_.booked found rfl).mp (at_.inv.told visit.pid visit.fd found at_.here told)

-- The handler changes its own slot, its own bit of the master set, the arrays and the locks.
theorem change {memory' : Memory} {progress' : Progress}
    (at_ : At visit progress conn kernel memory) (inv : KernelInv visit.file later)
    (conns : later.conns visit.pid = kernel.conns visit.pid) (content : later.file = kernel.file)
    (ledger : later.ledger = kernel.ledger)
    (clean : visit.kind = .writeServer → later.leaked visit.pid = kernel.leaked visit.pid)
    (requests : ∀ other, other ≠ visit.fd → memory'.requestP other = memory.requestP other)
    (masters : ∀ other, other ≠ visit.fd → memory'.masterSet other = true → memory.masterSet other = true)
    (booked : progress'.booked = progress.booked)
    (tally : ∀ record, Tally visit.kind (later.locks visit.pid record) (memory'.readLock record)
      (memory'.writeLock record)
      (others visit.host.maxfd visit.fd visit.conns visit.requests record +
        later.leaked visit.pid record + ownedBy progress'.own record)
      (others visit.host.maxfd visit.fd visit.conns visit.requests record +
        later.leaked visit.pid record + ownedBy progress'.counted record))
    (session : ∀ found, conn = some found → (memory'.requestP visit.fd).stage = 1 →
      progress'.own = some (memory'.requestP visit.fd).id ∧
        found.entered = some (memory'.requestP visit.fd).id ∧
        (Shown visit.kind kernel.file found (memory'.requestP visit.fd).id ∨
          visit.kind = .writeServer ∧ progress.booked)) :
    At visit progress' conn later memory' := by
  have same : ∀ sid, later.Booked sid ↔ kernel.Booked sid := fun sid => by
    rw [Kernel.Booked, Kernel.Booked, ledger]
  refine ⟨inv, conns ▸ at_.here, conns ▸ at_.usable, ?_, ?_, ?_, ?_, tally, ?_, ?_, conns ▸ at_.ready,
    at_.bound, at_.apart, at_.distinct⟩
  · intro other different found here
    rw [requests other different]
    exact (at_.slots other different found (conns ▸ here)).stable (same found.sid)
      fun _ => by rw [content]
  · intro other different
    exact ⟨conns ▸ (at_.kept other different).1,
      (requests other different).trans (at_.kept other different).2⟩
  · intro found here
    rw [same, booked]
    exact at_.booked found here
  · rw [booked, content]
    exact session
  · intro writer
    rw [clean writer]
    exact at_.clean writer
  · intro other different member
    rw [conns]
    exact at_.master other different (masters other different member)

theorem setSlot (at_ : At visit progress conn kernel memory) (request : Request)
    (stage : request.stage = (memory.requestP visit.fd).stage)
    (id : request.id = (memory.requestP visit.fd).id) :
    At visit progress conn kernel (setRequest visit.fd request memory) := by
  refine at_.change at_.inv rfl rfl rfl (fun _ => rfl)
    (fun other different => Function.update_of_ne different _ _) (fun _ _ member => member) rfl at_.tally ?_
  simp only [setRequest, Function.update_self, stage, id]
  exact at_.session

theorem enter {found : Conn} {record : Nat} {counted : Option Nat} {booked : Prop}
    (at_ : At visit ⟨some record, counted, booked⟩ (some found) kernel memory)
    (shown : Shown visit.kind kernel.file found record) (request : Request) (id : request.id = record) :
    At visit ⟨some record, counted, booked⟩ (some found) kernel (setRequest visit.fd request memory) := by
  refine at_.change at_.inv rfl rfl rfl (fun _ => rfl)
    (fun other different => Function.update_of_ne different _ _) (fun _ _ member => member) rfl at_.tally ?_
  rintro _ ⟨⟩ _
  rw [setRequest_requestP, id]
  exact ⟨rfl, shown.entered, .inl shown⟩

theorem freeSlot (at_ : At visit progress none kernel memory) (request : Request) :
    At visit progress none kernel (setRequest visit.fd request memory) :=
  at_.change at_.inv rfl rfl rfl (fun _ => rfl)
    (fun other different => Function.update_of_ne different _ _) (fun _ _ member => member) rfl at_.tally
    (fun _ absent => absurd absent (by simp))

theorem fdClr (at_ : At visit progress conn kernel memory) (fd : Int) :
    At visit progress conn kernel (fdClr fd memory) := by
  refine at_.change at_.inv rfl rfl rfl (fun _ => rfl) (fun _ _ => rfl) (fun other _ member => ?_) rfl
    at_.tally at_.session
  simp only [Booking.fdClr] at member
  split_ifs at member
  exact member

theorem reconnect {conn' : Option Conn} (at_ : At visit progress conn kernel memory)
    (inv : KernelInv visit.file later) (here : later.conns visit.pid visit.fd = conn')
    (elsewhere : ∀ other, other ≠ visit.fd →
      later.conns visit.pid other = kernel.conns visit.pid other)
    (locks : later.locks = kernel.locks) (content : later.file = kernel.file)
    (ledger : later.ledger = kernel.ledger) (leaked : later.leaked = kernel.leaked)
    (open_ : conn'.isSome → conn.isSome)
    (booked : ∀ found, conn' = some found → (kernel.Booked found.sid ↔ progress.booked))
    (session : ∀ found, conn' = some found → (memory.requestP visit.fd).stage = 1 →
      progress.own = some (memory.requestP visit.fd).id ∧
        found.entered = some (memory.requestP visit.fd).id ∧
        (Shown visit.kind kernel.file found (memory.requestP visit.fd).id ∨
          visit.kind = .writeServer ∧ progress.booked)) :
    At visit progress conn' later memory := by
  have same : ∀ sid, later.Booked sid ↔ kernel.Booked sid := fun sid => by
    rw [Kernel.Booked, Kernel.Booked, ledger]
  refine ⟨inv, here, ?_, ?_, ?_, ?_, ?_, ?_, ?_, ?_, ?_, at_.bound, at_.apart, at_.distinct⟩
  · intro other present
    by_cases at_fd : other = visit.fd
    · subst at_fd
      exact at_.usable _ (at_.here ▸ open_ (here ▸ present))
    · exact at_.usable other (elsewhere other at_fd ▸ present)
  · intro other different before present
    rw [elsewhere other different] at present
    exact (at_.slots other different before present).stable (same before.sid) fun _ => by rw [content]
  · intro other different
    rw [elsewhere other different]
    exact at_.kept other different
  · intro found present
    rw [same]
    exact booked found present
  · rw [content]
    exact session
  · rw [locks, leaked]
    exact at_.tally
  · rw [leaked]
    exact at_.clean
  · intro other different member
    rw [elsewhere other different]
    exact at_.master other different member
  · intro other member
    rw [elsewhere other fun same => at_.apart (same ▸ member)]
    exact at_.ready other member

theorem uncountRead {booked : Prop} {record : Nat}
    (at_ : At visit ⟨some record, some record, booked⟩ none kernel memory)
    (reader : visit.kind = .readServer) :
    At visit ⟨some record, none, booked⟩ none kernel
      (setReadLock record (memory.readLock record - 1) memory) := by
  refine at_.change at_.inv rfl rfl rfl (fun _ => rfl) (fun _ _ => rfl) (fun _ _ member => member) rfl
    (fun number => ?_) (fun _ absent => absurd absent (by simp))
  have tally := at_.tally number
  rw [reader] at tally ⊢
  by_cases same : number = record
  · subst same
    simp only [ownedBy, if_pos] at tally
    simpa [setReadLock, ownedBy] using tally.uncountRead
  · have other : ¬ record = number := Ne.symm same
    simpa [setReadLock, ownedBy, same, other] using tally

theorem uncountWrite {booked : Prop} {record : Nat}
    (at_ : At visit ⟨some record, some record, booked⟩ none kernel memory)
    (writer : visit.kind = .writeServer) :
    At visit ⟨some record, none, booked⟩ none kernel (setWriteLock record false memory) := by
  refine at_.change at_.inv rfl rfl rfl (fun _ => rfl) (fun _ _ => rfl) (fun _ _ member => member) rfl
    (fun number => ?_) (fun _ absent => absurd absent (by simp))
  have tally := at_.tally number
  rw [writer] at tally ⊢
  by_cases same : number = record
  · subst same
    simp only [ownedBy, if_pos] at tally
    simpa [setWriteLock, ownedBy] using tally.uncountWrite
  · have other : ¬ record = number := Ne.symm same
    simpa [setWriteLock, ownedBy, same, other] using tally

def sharers (visit : Visit P) (kernel : Kernel P) (record : Nat) : Nat :=
  others visit.host.maxfd visit.fd visit.conns visit.requests record + kernel.leaked visit.pid record

theorem leaveLock {booked : Prop} {record : Nat}
    (at_ : At visit ⟨some record, none, booked⟩ none kernel memory)
    (more : sharers visit kernel record ≠ 0) :
    At visit ⟨none, none, booked⟩ none kernel memory := by
  refine at_.change at_.inv rfl rfl rfl (fun _ => rfl) (fun _ _ => rfl) (fun _ _ member => member) rfl
    (fun number => ?_) (fun _ absent => absurd absent (by simp))
  have tally := at_.tally number
  by_cases same : number = record
  · subst same
    simp only [ownedBy, if_pos] at tally
    simpa [ownedBy] using tally.leave more
  · have other : ¬ record = number := Ne.symm same
    simpa [ownedBy, other] using tally

end At

theorem Idle.locked (idle : Idle file host kind pid working kernel memory) (record fd : Nat)
    (active : Active (kernel.conns pid) memory.requestP record fd) :
    kernel.locks pid record = some kind.mode := by
  have held := (idle.tally record).lock
  have bound := (idle.usable fd active.1).2.1
  have count := activeCount_eq host.maxfd fd (kernel.conns pid) memory.requestP record bound
  rw [if_pos active] at count
  rw [held, if_neg (by omega)]

theorem activeCount_two (maxfd first second : Nat) (conns : Nat → Option Conn)
    (requests : Nat → Request) (record : Nat) (bound : first < maxfd) (bound' : second < maxfd)
    (different : first ≠ second) (active : Active conns requests record first)
    (active' : Active conns requests record second) : 1 < activeCount maxfd conns requests record :=
  Finset.one_lt_card.mpr ⟨first, by simp [bound, active], second, by simp [bound', active'], different⟩

theorem Idle.covered (idle : Idle file host kind pid working kernel memory) :
    Covered host kind pid kernel memory := by
  refine ⟨fun fd record active => idle.locked record fd active, ?_, ?_⟩
  · intro fd found here stage
    rcases (idle.slots fd found here).stage with fresh | ⟨_, shown, _⟩
    · exact absurd (fresh.1.symm.trans stage) zero_ne_one
    · exact ⟨shown.entered, .inl shown⟩
  · intro writer first second record active active'
    by_contra different
    have sole := (idle.tally record).sole writer
    have two := activeCount_two host.maxfd first second _ _ record (idle.usable first active.1).2.1
      (idle.usable second active'.1).2.1 different active active'
    omega

theorem Idle.writer_lock (idle : Idle file host .writeServer pid working kernel memory)
    (record : Nat) :
    let sessions := activeCount host.maxfd (kernel.conns pid) memory.requestP record
    sessions ≤ 1 ∧ memory.writeLock record = decide (sessions ≠ 0) ∧
      kernel.locks pid record = if sessions = 0 then none else some .write := by
  have tally := idle.tally record
  rw [idle.clean rfl record] at tally
  exact ⟨tally.sole rfl, by simpa using tally.writeLock, tally.lock⟩

theorem Idle.count_ne_zero (idle : Idle file host kind pid working kernel memory) (record : Nat) :
    activeCount host.maxfd (kernel.conns pid) memory.requestP record ≠ 0 ↔
      ∃ fd, Active (kernel.conns pid) memory.requestP record fd := by
  rw [activeCount, Finset.card_ne_zero]
  constructor
  · rintro ⟨fd, member⟩
    exact ⟨fd, (Finset.mem_filter.mp member).2⟩
  · rintro ⟨fd, active⟩
    exact ⟨fd, Finset.mem_filter.mpr ⟨Finset.mem_range.mpr (idle.usable fd active.1).2.1, active⟩⟩

theorem Idle.stable (idle : Idle file host kind pid working kernel memory)
    (moved : Keeps file pid kernel later) : Idle file host kind pid working later memory := by
  refine ⟨moved.inv idle.inv, by rw [moved.conns]; exact idle.usable, ?_, ?_, ?_,
    by rw [moved.conns]; exact idle.master, by rw [moved.conns]; exact idle.ready, idle.distinct⟩
  · intro fd found here
    rw [moved.conns] at here
    refine (idle.slots fd found here).stable (moved.booked fd found here) fun stage => ?_
    -- as for `At.stable`, the record is locked
    refine moved.content _ ?_
    rw [idle.locked _ fd ⟨by simp [here], stage, rfl⟩]
    exact Option.some_ne_none _
  · rw [moved.conns, moved.leaked, moved.locks]
    exact idle.tally
  · rw [moved.leaked]
    exact idle.clean

def ownRecord (conn : Option Conn) (request : Request) : Option Nat :=
  if conn.isSome ∧ request.stage = 1 then some request.id else none

theorem ownedBy_ownRecord (conns : Nat → Option Conn) (requests : Nat → Request) (record fd : Nat) :
    ownedBy (ownRecord (conns fd) (requests fd)) record =
      if Active conns requests record fd then 1 else 0 := by
  unfold ownedBy ownRecord Active
  by_cases stage : (conns fd).isSome ∧ (requests fd).stage = 1
  · simp [stage]
  · have inactive : ¬ ((conns fd).isSome ∧ (requests fd).stage = 1 ∧ (requests fd).id = record) :=
      fun active => stage ⟨active.1, active.2.1⟩
    simp [stage, inactive]

theorem Idle.enter (idle : Idle file host kind pid (fd :: working) kernel memory)
    (connection : fd ≠ host.listenFd) :
    ∃ found, SlotOk kind kernel (memory.requestP fd) fd found ∧
      At ⟨file, host, kind, pid, fd, working, kernel.conns pid, memory.requestP⟩
        ⟨ownRecord (some found) (memory.requestP fd), ownRecord (some found) (memory.requestP fd), False⟩
        (some found) kernel memory := by
  obtain ⟨found, here⟩ := Option.isSome_iff_exists.mp
    ((idle.ready fd (List.mem_cons_self ..)).resolve_left connection)
  have slot := idle.slots fd found here
  have bound := (idle.usable fd (by simp [here])).2.1
  refine ⟨found, slot, idle.inv, here, idle.usable, fun other _ => idle.slots other,
    fun other _ => ⟨rfl, rfl⟩, ?_, ?_, ?_, idle.clean, fun other _ => idle.master other,
    fun other member => idle.ready other (List.mem_cons_of_mem _ member), bound,
    (List.nodup_cons.mp idle.distinct).1, (List.nodup_cons.mp idle.distinct).2⟩
  · rintro _ ⟨⟩
    exact iff_of_false slot.unbooked id
  · rintro _ ⟨⟩ stage
    rcases slot.stage with fresh | ⟨_, shown, _⟩
    · exact absurd (fresh.1.symm.trans stage) zero_ne_one
    · exact ⟨by simp [ownRecord, stage], shown.entered, .inl shown⟩
  · intro record
    have tally := idle.tally record
    rw [activeCount_eq host.maxfd fd _ _ record bound, ← ownedBy_ownRecord, here, add_right_comm] at tally
    exact tally

theorem At.leave (at_ : At visit progress conn kernel memory)
    (own : progress.own = ownRecord conn (memory.requestP visit.fd))
    (counted : progress.counted = ownRecord conn (memory.requestP visit.fd))
    (slot : ∀ found, conn = some found →
      SlotOk visit.kind kernel (memory.requestP visit.fd) visit.fd found)
    (closed : memory.masterSet visit.fd = true → conn.isSome) :
    Idle visit.file visit.host visit.kind visit.pid visit.working kernel memory := by
  refine ⟨at_.inv, at_.usable, ?_, ?_, at_.clean, ?_, at_.ready, at_.distinct⟩
  · intro other found here
    by_cases same : other = visit.fd
    · subst same
      exact slot found (at_.here.symm.trans here)
    · exact at_.slots other same found here
  · intro record
    have tally := at_.tally record
    rw [own, counted, ← at_.here, ownedBy_ownRecord, ← at_.others_eq] at tally
    rw [activeCount_eq visit.host.maxfd visit.fd _ _ record at_.bound, add_right_comm]
    exact tally
  · intro other member
    by_cases same : other = visit.fd
    · subst same
      exact .inr (at_.here ▸ closed member)
    · exact at_.master other same member

end SPHomework.Booking
