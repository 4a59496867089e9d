import Mathlib.Data.List.Basic
import Mathlib.Tactic.Common

/-! Programs that read and write ports, as trees over the answers of the device, and what
they do on the ports whatever the device answers. -/

inductive PortIo (ε α : Type) where
  | done (a : α)
  | fail (e : ε)
  | inb (port : UInt16) (k : UInt8 → PortIo ε α)
  | outb (value : UInt8) (port : UInt16) (k : PortIo ε α)

inductive Access where
  | read (port : UInt16) (value : UInt8)
  | write (value : UInt8) (port : UInt16)
  deriving DecidableEq, Repr

namespace PortIo
variable {ε α β : Type}

def bind : PortIo ε α → (α → PortIo ε β) → PortIo ε β
  | .done a, f => f a
  | .fail e, _ => .fail e
  | .inb port k, f => .inb port fun value => (k value).bind f
  | .outb value port k, f => .outb value port (k.bind f)

instance : Monad (PortIo ε) where
  pure := .done
  bind := bind

def read (port : UInt16) : PortIo ε UInt8 := .inb port .done

def write (value : UInt8) (port : UInt16) : PortIo ε Unit := .outb value port (.done ())

/-- The program can make these accesses, in this order, and end so. -/
def Does : PortIo ε α → List Access → Except ε α → Prop
  | .done a, log, result => log = [] ∧ result = .ok a
  | .fail e, log, result => log = [] ∧ result = .error e
  | .inb port k, log, result =>
    ∃ value rest, log = .read port value :: rest ∧ (k value).Does rest result
  | .outb value port k, log, result =>
    ∃ rest, log = .write value port :: rest ∧ k.Does rest result

variable {x : PortIo ε α} {f : α → PortIo ε β} {log : List Access}

@[simp] theorem does_pure {a : α} {result : Except ε α} :
    (pure a : PortIo ε α).Does log result ↔ log = [] ∧ result = .ok a := Iff.rfl

@[simp] theorem does_fail {e : ε} {result : Except ε α} :
    (fail e : PortIo ε α).Does log result ↔ log = [] ∧ result = .error e := Iff.rfl

/-- What a sequence does: the first part fails, or the second goes on with its result. -/
theorem does_bind {result : Except ε β} : (x >>= f).Does log result ↔
    (∃ e, x.Does log (.error e) ∧ result = .error e) ∨
      ∃ a first second, x.Does first (.ok a) ∧ (f a).Does second result ∧
        log = first ++ second := by
  change (x.bind f).Does log result ↔ _
  induction x generalizing log with
  | done a => simp [bind, Does]
  | fail e => simp [bind, Does]
  | inb port k ih =>
    simp only [bind, Does, ih]
    constructor
    · rintro ⟨value, rest, rfl, ⟨e, he, rfl⟩ | ⟨a, first, second, hfirst, hsecond, rfl⟩⟩
      · exact .inl ⟨e, ⟨value, rest, rfl, he⟩, rfl⟩
      · exact .inr ⟨a, _, second, ⟨value, first, rfl, hfirst⟩, hsecond, rfl⟩
    · rintro (⟨e, ⟨value, rest, rfl, he⟩, rfl⟩ |
        ⟨a, first, second, ⟨value, rest, rfl, hrest⟩, hsecond, rfl⟩)
      · exact ⟨value, rest, rfl, .inl ⟨e, he, rfl⟩⟩
      · exact ⟨value, rest ++ second, rfl, .inr ⟨a, rest, second, hrest, hsecond, rfl⟩⟩
  | outb value port k ih =>
    simp only [bind, Does, ih]
    constructor
    · rintro ⟨rest, rfl, ⟨e, he, rfl⟩ | ⟨a, first, second, hfirst, hsecond, rfl⟩⟩
      · exact .inl ⟨e, ⟨rest, rfl, he⟩, rfl⟩
      · exact .inr ⟨a, _, second, ⟨first, rfl, hfirst⟩, hsecond, rfl⟩
    · rintro (⟨e, ⟨rest, rfl, he⟩, rfl⟩ | ⟨a, first, second, ⟨rest, rfl, hrest⟩, hsecond, rfl⟩)
      · exact ⟨rest, rfl, .inl ⟨e, he, rfl⟩⟩
      · exact ⟨rest ++ second, rfl, .inr ⟨a, rest, second, hrest, hsecond, rfl⟩⟩

@[simp] theorem does_read {port : UInt16} {result : Except ε UInt8} :
    (read port : PortIo ε UInt8).Does log result ↔
      ∃ value, log = [.read port value] ∧ result = .ok value := by
  simp [read, Does]

@[simp] theorem does_write {value : UInt8} {port : UInt16} {result : Except ε Unit} :
    (write value port : PortIo ε Unit).Does log result ↔
      log = [.write value port] ∧ result = .ok () := by
  simp [write, Does]

/-! ### Waiting for a status -/

def poll (port : UInt16) (ready : UInt8 → Bool) (e : ε) : Nat → PortIo ε Unit
  | 0 => .fail e
  | n + 1 => do
    let value ← read port
    if ready value then pure () else poll port ready e n

def Busy (port : UInt16) (ready : UInt8 → Bool) (n : Nat) (log : List Access) : Prop :=
  ∃ values : List UInt8, values.length = n ∧ (∀ value ∈ values, ready value = false) ∧
    log = values.map (.read port)

section Poll
variable {port : UInt16} {ready : UInt8 → Bool} {n : Nat}

@[simp] theorem busy_zero : Busy port ready 0 log ↔ log = [] := by
  constructor
  · rintro ⟨values, hlength, -, rfl⟩
    rw [List.length_eq_zero_iff.mp hlength, List.map_nil]
  · rintro rfl
    exact ⟨[], rfl, List.forall_mem_nil _, rfl⟩

theorem busy_succ : Busy port ready (n + 1) log ↔
    ∃ value rest, ready value = false ∧ Busy port ready n rest ∧
      log = .read port value :: rest := by
  constructor
  · rintro ⟨values, hlength, hbusy, rfl⟩
    obtain ⟨value, values, rfl⟩ := List.exists_cons_of_length_eq_add_one hlength
    obtain ⟨hvalue, hvalues⟩ := List.forall_mem_cons.mp hbusy
    exact ⟨value, _, hvalue, ⟨values, Nat.succ.inj hlength, hvalues, rfl⟩, rfl⟩
  · rintro ⟨value, _, hvalue, ⟨values, hlength, hvalues, rfl⟩, rfl⟩
    exact ⟨value :: values, congrArg (· + 1) hlength,
      List.forall_mem_cons.mpr ⟨hvalue, hvalues⟩, rfl⟩

theorem does_poll {e : ε} {result : Except ε Unit} : (poll port ready e n).Does log result ↔
    (result = .error e ∧ Busy port ready n log) ∨
      (result = .ok () ∧ ∃ m < n, ∃ busy value, Busy port ready m busy ∧ ready value = true ∧
        log = busy ++ [.read port value]) := by
  induction n generalizing log with
  | zero =>
    simp only [poll, Does, busy_zero, Nat.not_lt_zero, false_and, exists_false, and_false, or_false]
    exact and_comm
  | succ n ih =>
    have hfirst : (poll port ready e (n + 1)).Does log result ↔
        ∃ value rest, log = .read port value :: rest ∧
          ((if ready value then pure () else poll port ready e n : PortIo ε Unit).Does rest
            result) := Iff.rfl
    rw [hfirst]
    constructor
    · rintro ⟨value, rest, rfl, hrest⟩
      cases hvalue : ready value with
      | true =>
        rw [if_pos hvalue] at hrest
        obtain ⟨rfl, rfl⟩ := does_pure.mp hrest
        exact .inr ⟨rfl, 0, n.succ_pos, [], value, busy_zero.mpr rfl, hvalue, rfl⟩
      | false =>
        rw [if_neg (by simp [hvalue]), ih] at hrest
        rcases hrest with ⟨rfl, hbusy⟩ | ⟨rfl, m, hm, busy, last, hbusy, hlast, rfl⟩
        · exact .inl ⟨rfl, busy_succ.mpr ⟨value, rest, hvalue, hbusy, rfl⟩⟩
        · exact .inr ⟨rfl, m + 1, Nat.succ_lt_succ hm, _, last,
            busy_succ.mpr ⟨value, busy, hvalue, hbusy, rfl⟩, hlast, rfl⟩
    · rintro (⟨rfl, hbusy⟩ | ⟨rfl, m, hm, busy, last, hbusy, hlast, rfl⟩)
      · obtain ⟨value, rest, hvalue, hrest, rfl⟩ := busy_succ.mp hbusy
        refine ⟨value, rest, rfl, ?_⟩
        rw [if_neg (by simp [hvalue]), ih]
        exact .inl ⟨rfl, hrest⟩
      · cases m with
        | zero =>
          rw [busy_zero.mp hbusy]
          refine ⟨last, [], rfl, ?_⟩
          rw [if_pos hlast]
          exact does_pure.mpr ⟨rfl, rfl⟩
        | succ m =>
          obtain ⟨value, rest, hvalue, hrest, rfl⟩ := busy_succ.mp hbusy
          refine ⟨value, _, rfl, ?_⟩
          rw [if_neg (by simp [hvalue]), ih]
          exact .inr ⟨rfl, m, Nat.lt_of_succ_lt_succ hm, rest, last, hrest, hlast, rfl⟩

theorem does_poll_bind {e : ε} {result : Except ε β} {next : PortIo ε β} :
    (poll port ready e n >>= fun _ => next).Does log result ↔
      (result = .error e ∧ Busy port ready n log) ∨
        ∃ m < n, ∃ busy value second, Busy port ready m busy ∧ ready value = true ∧
          next.Does second result ∧ log = busy ++ .read port value :: second := by
  rw [does_bind]
  constructor
  · rintro (⟨e', hpoll, rfl⟩ | ⟨_, first, second, hpoll, hnext, rfl⟩)
    · rcases does_poll.mp hpoll with ⟨he, hbusy⟩ | ⟨hok, -⟩
      · exact .inl ⟨congrArg Except.error (Except.error.inj he), hbusy⟩
      · cases hok
    · rcases does_poll.mp hpoll with ⟨herror, -⟩ | ⟨-, m, hm, busy, value, hbusy, hready, rfl⟩
      · cases herror
      · exact .inr ⟨m, hm, busy, value, second, hbusy, hready, hnext, by simp⟩
  · rintro (⟨rfl, hbusy⟩ | ⟨m, hm, busy, value, second, hbusy, hready, hnext, rfl⟩)
    · exact .inl ⟨e, does_poll.mpr (.inl ⟨rfl, hbusy⟩), rfl⟩
    · exact .inr ⟨(), _, second,
        does_poll.mpr (.inr ⟨rfl, m, hm, busy, value, hbusy, hready, rfl⟩), hnext, by simp⟩

end Poll

/-! ### Polled protocols -/

structure Bus (ε : Type) where
  status : UInt16
  writeReady : UInt8 → Bool
  readReady : UInt8 → Bool
  limit : Nat
  timeout : ε

namespace Bus
variable (bus : Bus ε)

def put (value : UInt8) (port : UInt16) : PortIo ε Unit := do
  poll bus.status bus.writeReady bus.timeout bus.limit
  write value port

def get (port : UInt16) : PortIo ε UInt8 := do
  poll bus.status bus.readReady bus.timeout bus.limit
  read port

def readyFor : Access → UInt8 → Bool
  | .read .. => bus.readReady
  | .write .. => bus.writeReady

def Exchange (access : Access) (log : List Access) : Prop :=
  ∃ m < bus.limit, ∃ busy value, Busy bus.status (bus.readyFor access) m busy ∧
    bus.readyFor access value = true ∧ log = busy ++ [.read bus.status value, access]

def Exchanges : List Access → List Access → Prop
  | [], log => log = []
  | access :: rest, log =>
    ∃ first second, bus.Exchange access first ∧ Exchanges rest second ∧ log = first ++ second

def Stuck (access : Access) (log : List Access) : Prop :=
  Busy bus.status (bus.readyFor access) bus.limit log

end Bus

/-- What a program does besides waiting: the accesses of the runs that end, with their results,
and the accesses of the others with the one that they still wait for. -/
structure Protocol (ε α : Type) where
  Ends : List Access → Except ε α → Prop
  Awaits : List Access → Access → Prop

namespace Protocol

def finish (result : Except ε α) : Protocol ε α :=
  ⟨fun accesses result' => accesses = [] ∧ result' = result, fun _ _ => False⟩

def after {γ : Type} (access : γ → Access) (next : γ → Protocol ε α) : Protocol ε α where
  Ends accesses result := ∃ c rest, accesses = access c :: rest ∧ (next c).Ends rest result
  Awaits accesses waiting := (accesses = [] ∧ ∃ c, waiting = access c) ∨
    ∃ c rest, accesses = access c :: rest ∧ (next c).Awaits rest waiting

/-- Some run ends, and whatever the protocol waits for, some run goes on with it to its end. -/
def Completes (p : Protocol ε α) : Prop :=
  (∃ accesses result, p.Ends accesses result) ∧ ∀ accesses access, p.Awaits accesses access →
    ∃ rest result, p.Ends (accesses ++ access :: rest) result

theorem completes_finish (result : Except ε α) : (finish result).Completes :=
  ⟨⟨[], result, rfl, rfl⟩, fun _ _ h => h.elim⟩

theorem completes_after {γ : Type} [Nonempty γ] {access : γ → Access} {next : γ → Protocol ε α}
    (h : ∀ c, (next c).Completes) : (after access next).Completes := by
  constructor
  · obtain ⟨c⟩ := ‹Nonempty γ›
    obtain ⟨⟨rest, result, hends⟩, -⟩ := h c
    exact ⟨_, result, c, rest, rfl, hends⟩
  · rintro accesses waiting (⟨rfl, c, rfl⟩ | ⟨c, earlier, rfl, hawaits⟩)
    · obtain ⟨⟨rest, result, hends⟩, -⟩ := h c
      exact ⟨rest, result, c, rest, rfl, hends⟩
    · obtain ⟨rest, result, hends⟩ := (h c).2 earlier waiting hawaits
      exact ⟨rest, result, c, _, rfl, hends⟩

end Protocol

namespace Bus
variable {bus : Bus ε} {γ : Type}

/-- A log of the protocol: it runs to its end, or a wait was in vain. -/
def Logs (bus : Bus ε) (p : Protocol ε α) (log : List Access) (result : Except ε α) : Prop :=
  (∃ accesses, p.Ends accesses result ∧ bus.Exchanges accesses log) ∨
    (result = .error bus.timeout ∧ ∃ accesses access first second, p.Awaits accesses access ∧
      bus.Exchanges accesses first ∧ bus.Stuck access second ∧ log = first ++ second)

def Follows (bus : Bus ε) (x : PortIo ε α) (p : Protocol ε α) : Prop :=
  ∀ log result, x.Does log result ↔ bus.Logs p log result

def Asks (bus : Bus ε) (x : PortIo ε γ) (access : γ → Access) : Prop :=
  ∀ log result, x.Does log result ↔
    (result = .error bus.timeout ∧ ∃ c, bus.Stuck (access c) log) ∨
      ∃ c, result = .ok c ∧ bus.Exchange (access c) log

theorem asks_put (value : UInt8) (port : UInt16) :
    bus.Asks (bus.put value port) fun _ => .write value port := by
  intro log result
  rw [put, does_poll_bind]
  refine or_congr (and_congr_right' ⟨fun h => ⟨(), h⟩, fun ⟨_, h⟩ => h⟩) ?_
  constructor
  · rintro ⟨m, hm, busy, status, second, hbusy, hready, hwrite, rfl⟩
    obtain ⟨rfl, rfl⟩ := does_write.mp hwrite
    exact ⟨(), rfl, m, hm, busy, status, hbusy, hready, rfl⟩
  · rintro ⟨_, rfl, m, hm, busy, status, hbusy, hready, rfl⟩
    exact ⟨m, hm, busy, status, _, hbusy, hready, does_write.mpr ⟨rfl, rfl⟩, rfl⟩

theorem asks_get (port : UInt16) : bus.Asks (bus.get port) (.read port) := by
  intro log result
  rw [get, does_poll_bind]
  refine or_congr (and_congr_right' ⟨fun h => ⟨0, h⟩, fun ⟨_, h⟩ => h⟩) ?_
  constructor
  · rintro ⟨m, hm, busy, status, second, hbusy, hready, hread, rfl⟩
    obtain ⟨value, rfl, rfl⟩ := does_read.mp hread
    exact ⟨value, rfl, m, hm, busy, status, hbusy, hready, rfl⟩
  · rintro ⟨value, rfl, m, hm, busy, status, hbusy, hready, rfl⟩
    exact ⟨m, hm, busy, status, _, hbusy, hready, does_read.mpr ⟨value, rfl, rfl⟩, rfl⟩

theorem follows_finish {x : PortIo ε α} {result : Except ε α}
    (hx : ∀ log result', x.Does log result' ↔ log = [] ∧ result' = result) :
    bus.Follows x (.finish result) := by
  intro log result'
  rw [hx]
  constructor
  · rintro ⟨rfl, rfl⟩
    exact .inl ⟨[], ⟨rfl, rfl⟩, rfl⟩
  · rintro (⟨accesses, ⟨rfl, rfl⟩, rfl⟩ | ⟨-, _, _, _, _, hawaits, -⟩)
    · exact ⟨rfl, rfl⟩
    · exact hawaits.elim

theorem Asks.follows {x : PortIo ε γ} {access : γ → Access} (hx : bus.Asks x access)
    {f : γ → PortIo ε α} {next : γ → Protocol ε α} (hf : ∀ c, bus.Follows (f c) (next c)) :
    bus.Follows (x >>= f) (.after access next) := by
  intro log result
  rw [does_bind]
  constructor
  · rintro (⟨e, hfirst, rfl⟩ | ⟨c, first, second, hfirst, hrest, rfl⟩)
    · rcases (hx _ _).mp hfirst with ⟨he, c, hstuck⟩ | ⟨c, hok, -⟩
      · exact .inr ⟨congrArg Except.error (Except.error.inj he), [], access c, [], log,
          .inl ⟨rfl, c, rfl⟩, rfl, hstuck, rfl⟩
      · cases hok
    · rcases (hx _ _).mp hfirst with ⟨herror, -⟩ | ⟨c', hc, hexchange⟩
      · cases herror
      · obtain rfl := Except.ok.inj hc
        rcases (hf c second result).mp hrest with ⟨accesses, hends, hexchanges⟩ |
          ⟨rfl, accesses, waiting, done, stuck, hawaits, hexchanges, hstuck, rfl⟩
        · exact .inl ⟨_, ⟨c, accesses, rfl, hends⟩, first, second, hexchange, hexchanges, rfl⟩
        · exact .inr ⟨rfl, _, waiting, first ++ done, stuck, .inr ⟨c, accesses, rfl, hawaits⟩,
            ⟨first, done, hexchange, hexchanges, rfl⟩, hstuck, by simp⟩
  · rintro (⟨_, ⟨c, accesses, rfl, hends⟩, first, second, hexchange, hexchanges, rfl⟩ |
      ⟨rfl, accesses, waiting, done, stuck, ⟨rfl, c, rfl⟩ | ⟨c, rest, rfl, hawaits⟩, hexchanges,
        hstuck, rfl⟩)
    · exact .inr ⟨c, first, second, (hx _ _).mpr (.inr ⟨c, rfl, hexchange⟩),
        (hf c second result).mpr (.inl ⟨accesses, hends, hexchanges⟩), rfl⟩
    · obtain rfl : done = [] := hexchanges
      exact .inl ⟨bus.timeout, (hx _ _).mpr (.inl ⟨rfl, c, hstuck⟩), rfl⟩
    · obtain ⟨first, second, hexchange, hrest, rfl⟩ := hexchanges
      refine .inr ⟨c, first, second ++ stuck, (hx _ _).mpr (.inr ⟨c, rfl, hexchange⟩), ?_,
        by simp⟩
      exact (hf c _ _).mpr (.inr ⟨rfl, rest, waiting, second, stuck, hawaits, hrest, hstuck, rfl⟩)

/-! ### What a log shows -/

def isAccess (bus : Bus ε) : Access → Bool
  | .read port _ => port ≠ bus.status
  | .write .. => true

/-- Every access comes right behind a look at the status that allows it. -/
def Disciplined (bus : Bus ε) (log : List Access) : Prop :=
  ∀ i access, log[i]? = some access → bus.isAccess access = true →
    ∃ j value, i = j + 1 ∧ log[j]? = some (.read bus.status value) ∧
      bus.readyFor access value = true

theorem isAccess_status (bus : Bus ε) (value : UInt8) :
    bus.isAccess (.read bus.status value) = false := by
  simp [isAccess]

theorem not_access_of_busy {ready : UInt8 → Bool} {n : Nat} (h : Busy bus.status ready n log) :
    ∀ access ∈ log, bus.isAccess access = false := by
  obtain ⟨values, -, -, rfl⟩ := h
  intro access haccess
  obtain ⟨value, -, rfl⟩ := List.mem_map.mp haccess
  exact bus.isAccess_status value

theorem length_busy {port : UInt16} {ready : UInt8 → Bool} {n : Nat}
    (h : Busy port ready n log) : log.length = n := by
  obtain ⟨values, hlength, -, rfl⟩ := h
  rw [List.length_map, hlength]

theorem disciplined_of_status (h : ∀ access ∈ log, bus.isAccess access = false) :
    bus.Disciplined log := by
  intro i access hi haccess
  rw [h access (List.mem_of_getElem? hi)] at haccess
  cases haccess

theorem Disciplined.append {second : List Access} (h : bus.Disciplined log)
    (hsecond : bus.Disciplined second) : bus.Disciplined (log ++ second) := by
  intro i access hi haccess
  by_cases hlog : i < log.length
  · rw [List.getElem?_append_left hlog] at hi
    obtain ⟨j, value, rfl, hj, hready⟩ := h i access hi haccess
    exact ⟨j, value, rfl, by rw [List.getElem?_append_left (by omega)]; exact hj, hready⟩
  · rw [List.getElem?_append_right (by omega)] at hi
    obtain ⟨j, value, hij, hj, hready⟩ := hsecond _ access hi haccess
    refine ⟨log.length + j, value, by omega, ?_, hready⟩
    rw [List.getElem?_append_right (by omega), Nat.add_sub_cancel_left]
    exact hj

theorem Exchange.disciplined {access : Access} (h : bus.Exchange access log) :
    bus.Disciplined log := by
  obtain ⟨m, hm, busy, value, hbusy, hready, rfl⟩ := h
  have hpolled : bus.Disciplined busy := disciplined_of_status (not_access_of_busy hbusy)
  apply hpolled.append
  intro i access' hi haccess
  match i with
  | 0 =>
    obtain rfl : Access.read bus.status value = access' := Option.some.inj hi
    rw [isAccess_status] at haccess
    cases haccess
  | 1 =>
    obtain rfl : access = access' := Option.some.inj hi
    exact ⟨0, value, rfl, rfl, hready⟩
  | i + 2 => simp at hi

theorem Exchange.length {access : Access} (h : bus.Exchange access log) :
    log.length ≤ bus.limit + 1 := by
  obtain ⟨m, hm, busy, value, hbusy, -, rfl⟩ := h
  have hlength := length_busy hbusy
  simp only [List.length_append, List.length_cons, List.length_nil]
  omega

theorem filter_busy {ready : UInt8 → Bool} {n : Nat} (h : Busy bus.status ready n log) :
    log.filter bus.isAccess = [] :=
  List.filter_eq_nil_iff.mpr fun access haccess => by simp [not_access_of_busy h access haccess]

theorem Exchange.filter {access : Access} (haccess : bus.isAccess access = true)
    (h : bus.Exchange access log) : log.filter bus.isAccess = [access] := by
  obtain ⟨m, hm, busy, value, hbusy, -, rfl⟩ := h
  simp [filter_busy hbusy, isAccess_status, haccess]

theorem Exchanges.spec {accesses : List Access}
    (haccesses : ∀ access ∈ accesses, bus.isAccess access = true)
    (h : bus.Exchanges accesses log) :
    log.filter bus.isAccess = accesses ∧ bus.Disciplined log ∧
      log.length ≤ accesses.length * (bus.limit + 1) := by
  induction accesses generalizing log with
  | nil =>
    obtain rfl : log = [] := h
    exact ⟨rfl, disciplined_of_status (List.forall_mem_nil _), by simp⟩
  | cons access rest ih =>
    obtain ⟨first, second, hexchange, hrest, rfl⟩ := h
    obtain ⟨haccess, hothers⟩ := List.forall_mem_cons.mp haccesses
    obtain ⟨hfilter, hdisciplined, hlength⟩ := ih hothers hrest
    refine ⟨?_, hexchange.disciplined.append hdisciplined, ?_⟩
    · rw [List.filter_append, hexchange.filter haccess, hfilter]
      rfl
    · have hfirst := hexchange.length
      rw [List.length_append, List.length_cons, Nat.succ_mul]
      omega

/-- Whatever the device answers: the accesses are those of the protocol, each of them allowed
by the status before it, and the program ends after boundedly many looks. -/
theorem Logs.spec {p : Protocol ε α} {result : Except ε α} (h : bus.Logs p log result)
    (hcompletes : p.Completes) (hends : ∀ accesses result, p.Ends accesses result →
      ∀ access ∈ accesses, bus.isAccess access = true) :
    (p.Ends (log.filter bus.isAccess) result ∨
        result = .error bus.timeout ∧ ∃ access, p.Awaits (log.filter bus.isAccess) access) ∧
      bus.Disciplined log ∧
      log.length ≤ (log.filter bus.isAccess).length * (bus.limit + 1) + bus.limit := by
  rcases h with ⟨accesses, hdone, hexchanges⟩ |
    ⟨rfl, accesses, access, first, second, hwaits, hexchanges, hstuck, rfl⟩
  · obtain ⟨rfl, hdisciplined, hlength⟩ := hexchanges.spec (hends accesses result hdone)
    exact ⟨.inl hdone, hdisciplined, by omega⟩
  · obtain ⟨rest, last, hlast⟩ := hcompletes.2 accesses access hwaits
    obtain ⟨rfl, hdisciplined, hlength⟩ := hexchanges.spec fun access haccess =>
      hends _ last hlast access (List.mem_append_left _ haccess)
    have hfilter : (first ++ second).filter bus.isAccess = first.filter bus.isAccess := by
      rw [List.filter_append, filter_busy hstuck, List.append_nil]
    rw [hfilter]
    refine ⟨.inr ⟨rfl, access, hwaits⟩,
      hdisciplined.append (disciplined_of_status (not_access_of_busy hstuck)), ?_⟩
    rw [List.length_append, length_busy hstuck]
    omega

end Bus

end PortIo
