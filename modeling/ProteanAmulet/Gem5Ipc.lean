import Mathlib.Data.Stream.Defs
import Mathlib.Algebra.Order.Group.Nat
import Mathlib.Algebra.Ring.Nat
import Mathlib.Tactic.Common
import ProteanAmulet.Library.SelfDelimiting

/-! The socket of a gem5 process: how `recv` puts a reply together from what arrives. -/
namespace ProteanAmulet.Gem5IPCOrchestration

/-- What arrives while `select` waits, at most for a second. After its last bytes the peer can close
the connection. -/
structure Second where
  arrived : List UInt8 := []
  closes : Bool := false

/-- A connection: the bytes that have arrived and were not read, and what will happen in the calls of
`select` to come. -/
structure Conn where
  pending : List UInt8 := []
  closed : Bool := false
  seconds : Stream' Second

inductive Gem5Crash where
  | exited
  | deadlock
  deriving DecidableEq

def Gem5Crash.message : Gem5Crash → String
  | .exited => "gem5 exited unexpectedly"
  | .deadlock => "gem5 in deadlock?"

namespace Conn

/-- The connection after `conn_selector.select(timeout = 1)`. -/
def wait (conn : Conn) : Conn where
  pending := if conn.closed then conn.pending else conn.pending ++ conn.seconds.head.arrived
  closed := conn.closed || conn.seconds.head.closes
  seconds := conn.seconds.tail

/-- A read does not block: there are bytes or the end of the stream. -/
def ready (conn : Conn) : Bool := conn.pending ≠ [] || conn.closed

/-- What `conn.recv(count)` leaves; it returns the bytes before. -/
def read (conn : Conn) (count : ℕ) : Conn := { conn with pending := conn.pending.drop count }

end Conn

def recvLoop (timeSpent count : ℕ) (data : List UInt8) (conn : Conn) :
    Except Gem5Crash (List UInt8) × Conn :=
  if timeSpent<120 then
    if conn.wait.ready then
      let buf := conn.wait.pending.take count
      if buf.length = 0 then (.error .exited,conn.wait.read count)
      else if count-buf.length = 0 then (.ok (data ++ buf),conn.wait.read count)
      else recvLoop timeSpent (count-buf.length) (data ++ buf) (conn.wait.read count)
    else recvLoop (timeSpent+1) count data conn.wait
  else (.error .deadlock,conn)
termination_by count+(120-timeSpent)
decreasing_by
  · change count-buf.length+(120-timeSpent)<count+(120-timeSpent)
    omega
  · omega

def recv (count : ℕ) (conn : Conn) : Except Gem5Crash (List UInt8) × Conn := recvLoop 0 count [] conn

/-- Calls of `recv`, one after the other. -/
def recvAll : List ℕ → Conn → Except Gem5Crash (List (List UInt8)) × Conn
  | [], conn => (.ok [],conn)
  | count :: counts, conn =>
    match recv count conn with
    | (.ok data,conn) =>
      match recvAll counts conn with
      | (.ok slices,conn) => (.ok (data :: slices),conn)
      | (.error e,conn) => (.error e,conn)
    | (.error e,conn) => (.error e,conn)

/-- `struct.unpack('Q', bytes)`. -/
def unpackWord (bytes : List UInt8) : ℕ := SelfDelimiting.wordValue bytes

inductive ReplyError where
  | crash (crash : Gem5Crash)
  | unexpected (op : ℕ)
  deriving DecidableEq

/-- A reply with a length in front of it, of `trace_test_case`. -/
def reply (ack : ℕ) (conn : Conn) : Except ReplyError (List UInt8) × Conn :=
  match recv 16 conn with
  | (.error crash,conn) => (.error (.crash crash),conn)
  | (.ok header,conn) =>
    if unpackWord (header.take 8) ≠ ack then (.error (.unexpected (unpackWord (header.take 8))),conn)
    else
      match recv (unpackWord (header.drop 8)) conn with
      | (.error crash,conn) => (.error (.crash crash),conn)
      | (.ok log,conn) => (.ok log,conn)

section Framing

/-- The connection after some seconds, if nothing is read. -/
def Conn.later (conn : Conn) : ℕ → Conn
  | 0 => conn
  | k+1 => conn.wait.later k

/-- The number of seconds in which nothing can be read, if all that arrives is read. -/
def Conn.idle (conn : Conn) : ℕ → ℕ
  | 0 => 0
  | k+1 => (if conn.wait.ready then 0 else 1) + Conn.idle { conn.wait with pending := [] } k

/-- The bytes of a connection with others in front of them. -/
def Conn.prepend (data : List UInt8) (conn : Conn) : Conn :=
  { conn with pending := data ++ conn.pending }

/-- Some bytes are the next ones of the stream, and the later ones are still to be read. -/
def Gives (conn : Conn) (data : List UInt8) (conn' : Conn) : Prop :=
  ∃ k, conn.later k = conn'.prepend data

/-- The peer closed the connection, or the limit was reached, before enough bytes had arrived. -/
def Early (timeSpent : ℕ) (conn : Conn) (count : ℕ) (crash : Gem5Crash) : Prop :=
  ∃ k, (conn.later k).pending.length<count ∧
    match crash with
    | .exited => (conn.later k).closed
    | .deadlock => 120 ≤ timeSpent+conn.idle k

/-- There is a reason for a crash, and the bytes do not arrive before the limit. -/
structure Fails (conn : Conn) (count : ℕ) (crash : Gem5Crash) : Prop where
  early : Early 0 conn count crash
  late : ∀ k, conn.idle k<120 → (conn.later k).pending.length<count

/-- The calls return the bytes they ask for, or there is a reason for the crash. -/
def FramedCalls : List ℕ → Conn → Prop
  | [], _ => True
  | count :: counts, conn =>
    match recv count conn with
    | (.ok data,conn') => data.length=count ∧ Gives conn data conn' ∧ FramedCalls counts conn'
    | (.error crash,_) => Fails conn count crash

/-- The calls return consecutive slices of the stream. -/
structure Framed (counts : List ℕ) (conn : Conn) : Prop where
  calls : FramedCalls counts conn
  slices : ∀ slices conn', recvAll counts conn = (.ok slices,conn') →
    slices.map List.length = counts ∧ Gives conn slices.flatten conn'

end Framing

section Streams
variable (conn : Conn) (data : List UInt8)

lemma wait_prepend : (conn.prepend data).wait = conn.wait.prepend data := by
  unfold Conn.wait Conn.prepend
  cases conn.closed <;> simp

lemma later_prepend (k : ℕ) : (conn.prepend data).later k = (conn.later k).prepend data := by
  induction k generalizing conn with
  | zero => rfl
  | succ k ih =>
    rw [Conn.later,Conn.later,wait_prepend]
    exact ih conn.wait

lemma later_add (j k : ℕ) : conn.later (j+k) = (conn.later j).later k := by
  induction j generalizing conn with
  | zero => rw [Nat.zero_add,Conn.later]
  | succ j ih =>
    rw [Nat.add_right_comm,Conn.later,Conn.later]
    exact ih conn.wait

variable {conn}

/-- After the connection is closed nothing arrives. -/
lemma later_of_closed (h : conn.closed) (k : ℕ) : (conn.later k).pending = conn.pending := by
  induction k generalizing conn with
  | zero => rfl
  | succ k ih =>
    have closed : conn.wait.closed := by simp [Conn.wait,h]
    rw [Conn.later,ih closed]
    simp [Conn.wait,h]

variable (conn)

lemma pending_le_wait : conn.pending.length ≤ conn.wait.pending.length := by
  unfold Conn.wait
  cases conn.closed <;> simp

lemma pending_le_later (k : ℕ) : conn.pending.length ≤ (conn.later k).pending.length := by
  induction k generalizing conn with
  | zero => exact le_rfl
  | succ k ih => exact (pending_le_wait conn).trans (ih conn.wait)

lemma pending_mono {j k : ℕ} (h : j ≤ k) :
    (conn.later j).pending.length ≤ (conn.later k).pending.length := by
  obtain ⟨m,rfl⟩ := Nat.exists_eq_add_of_le h
  rw [later_add]
  exact pending_le_later (conn.later j) m

lemma idle_mono {j k : ℕ} (h : j ≤ k) : conn.idle j ≤ conn.idle k := by
  induction j generalizing conn k with
  | zero => exact Nat.zero_le _
  | succ j ih =>
    obtain ⟨k,rfl⟩ := Nat.exists_eq_add_of_le' (Nat.le_of_add_left_le h)
    exact Nat.add_le_add_left (ih _ (Nat.le_of_succ_le_succ h)) _

variable {conn} {count : ℕ} {crash : Gem5Crash}

lemma Early.fails (h : Early 0 conn count crash) : Fails conn count crash where
  early := h
  late k hk := by
    obtain ⟨j,few,reason⟩ := h
    by_cases le : k ≤ j
    · exact (pending_mono conn le).trans_lt few
    cases crash with
    | exited =>
      obtain ⟨m,rfl⟩ := Nat.exists_eq_add_of_le (Nat.le_of_not_le le)
      rwa [later_add,later_of_closed reason]
    | deadlock =>
      have := idle_mono conn (Nat.le_of_not_le le)
      dsimp only at reason
      omega

end Streams

section Loop
variable {timeSpent count : ℕ} {data : List UInt8} {conn : Conn} {crash : Gem5Crash}

lemma prepend_read (conn : Conn) (count : ℕ) :
    (conn.read count).prepend (conn.pending.take count) = conn := by
  rw [Conn.prepend,Conn.read,List.take_append_drop]

lemma Early.of_read (ready : conn.wait.ready) (few : conn.wait.pending.length<count)
    (h : Early timeSpent (conn.wait.read count) (count-(conn.wait.pending.take count).length) crash) :
    Early timeSpent conn count crash := by
  obtain ⟨k,short,reason⟩ := h
  have all := List.take_of_length_le few.le
  have none : conn.wait.read count = { conn.wait with pending := [] } := by
    rw [Conn.read,List.drop_of_length_le few.le]
  have later : conn.later (k+1) = ((conn.wait.read count).later k).prepend conn.wait.pending := by
    rw [← later_prepend,← all,prepend_read,Conn.later]
  rw [all] at short
  refine ⟨k+1,?_,?_⟩
  · rw [later,Conn.prepend,List.length_append]
    omega
  · cases crash with
    | exited =>
      rw [later]
      exact reason
    | deadlock =>
      rw [Conn.idle,if_pos ready,Nat.zero_add,← none]
      exact reason

lemma Early.of_idle (idle : conn.wait.ready = false) (h : Early (timeSpent+1) conn.wait count crash) :
    Early timeSpent conn count crash := by
  obtain ⟨k,short,reason⟩ := h
  have none : conn.wait.pending = [] := by
    simp only [Conn.ready,Bool.or_eq_false_iff,decide_eq_false_iff_not,not_not] at idle
    exact idle.1
  refine ⟨k+1,short,?_⟩
  cases crash with
  | exited => exact reason
  | deadlock =>
    have same : { conn.wait with pending := [] } = conn.wait := by rw [← none]
    rw [Conn.idle,idle,if_neg Bool.false_ne_true,same,← Nat.add_assoc]
    exact reason

lemma Gives.of_read {new : List UInt8} {conn' : Conn} (h : Gives (conn.wait.read count) new conn') :
    Gives conn (conn.wait.pending.take count ++ new) conn' := by
  obtain ⟨k,hk⟩ := h
  refine ⟨k+1,?_⟩
  rw [Conn.later,← prepend_read conn.wait count,later_prepend,hk]
  simp [Conn.prepend,Conn.read]

/-- What the loop has returned, or why it has stopped. -/
def LoopSpec (timeSpent count : ℕ) (data : List UInt8) (conn : Conn) :
    Except Gem5Crash (List UInt8) × Conn → Prop
  | (.ok result,conn') => ∃ new, result = data ++ new ∧ new.length=count ∧ Gives conn new conn'
  | (.error crash,_) => Early timeSpent conn count crash

/-- The loop asks for the rest of the bytes, if it asks for any. When the time is over there was
nothing to read in the last second. -/
lemma recvLoop_spec (some : 0<count) (unread : 120 ≤ timeSpent → conn.pending = []) :
    LoopSpec timeSpent count data conn (recvLoop timeSpent count data conn) := by
  fun_induction recvLoop timeSpent count data conn with
  | case1 timeSpent count data conn time ready buf empty =>
    have none : conn.wait.pending = [] := by
      have length : buf.length = min count conn.wait.pending.length := List.length_take
      exact List.length_eq_zero_iff.mp (by omega)
    have closed : conn.wait.closed := by simpa [Conn.ready,none] using ready
    refine ⟨1,?_,closed⟩
    rw [Conn.later,Conn.later,none]
    exact some
  | case2 timeSpent count data conn time ready buf nonempty complete =>
    have length : buf.length = min count conn.wait.pending.length := List.length_take
    refine ⟨buf,rfl,by omega,1,?_⟩
    exact (prepend_read conn.wait count).symm
  | case3 timeSpent count data conn time ready buf nonempty partly ih =>
    have length : buf.length = min count conn.wait.pending.length := List.length_take
    have spec := ih (by omega) (by omega)
    cases h : recvLoop timeSpent (count-buf.length) (data ++ buf) (conn.wait.read count) with
    | mk result conn' =>
      rw [h] at spec
      cases result with
      | ok result =>
        obtain ⟨new,rfl,hl,gives⟩ := spec
        refine ⟨buf ++ new,List.append_assoc _ _ _,?_,gives.of_read⟩
        rw [List.length_append]
        omega
      | error crash => exact Early.of_read ready (by omega) spec
  | case4 timeSpent count data conn time idle ih =>
    have idle := Bool.eq_false_iff.mpr idle
    have none : conn.wait.pending = [] := by
      simp only [Conn.ready,Bool.or_eq_false_iff,decide_eq_false_iff_not,not_not] at idle
      exact idle.1
    have spec := ih some (fun _ => none)
    cases h : recvLoop (timeSpent+1) count data conn.wait with
    | mk result conn' =>
      rw [h] at spec
      cases result with
      | ok result =>
        obtain ⟨new,hn,hl,k,hk⟩ := spec
        exact ⟨new,hn,hl,k+1,hk⟩
      | error crash => exact Early.of_idle idle spec
  | case5 timeSpent count data conn time =>
    refine ⟨0,?_,Nat.le_of_not_lt time⟩
    rw [Conn.later,unread (Nat.le_of_not_lt time)]
    exact some

/-- A call that asks for no bytes does not return. -/
lemma recvLoop_zero : ∃ crash conn', recvLoop timeSpent 0 data conn = (.error crash,conn') := by
  induction h : 120-timeSpent generalizing timeSpent conn with
  | zero =>
    rw [recvLoop,if_neg (by omega)]
    exact ⟨_,_,rfl⟩
  | succ n ih =>
    rw [recvLoop,if_pos (by omega)]
    split_ifs
    · exact ⟨_,_,rfl⟩
    · exact ih (by omega)

end Loop

section Calls
variable {conn : Conn} {counts : List ℕ}

lemma recv_ok {count : ℕ} {result : List UInt8} {conn' : Conn} (some : 0<count)
    (h : recv count conn = (.ok result,conn')) : result.length=count ∧ Gives conn result conn' := by
  have spec : LoopSpec 0 count [] conn (recvLoop 0 count [] conn) := recvLoop_spec some (by omega)
  rw [recv] at h
  rw [h] at spec
  obtain ⟨new,rfl,hl,gives⟩ := spec
  exact ⟨hl,gives⟩

lemma recv_error {count : ℕ} {crash : Gem5Crash} {conn' : Conn} (some : 0<count)
    (h : recv count conn = (.error crash,conn')) : Fails conn count crash := by
  have spec : LoopSpec 0 count [] conn (recvLoop 0 count [] conn) := recvLoop_spec some (by omega)
  rw [recv] at h
  rw [h] at spec
  exact Early.fails spec

lemma recv_zero (conn : Conn) : ∃ crash conn', recv 0 conn = (.error crash,conn') := recvLoop_zero

lemma Gives.trans {data data' : List UInt8} {conn' conn'' : Conn} (h : Gives conn data conn')
    (h' : Gives conn' data' conn'') : Gives conn (data ++ data') conn'' := by
  obtain ⟨j,hj⟩ := h
  obtain ⟨k,hk⟩ := h'
  refine ⟨j+k,?_⟩
  rw [later_add,hj,later_prepend,hk]
  simp [Conn.prepend]

lemma framedCalls_of_pos (h : 0 ∉ counts) (conn : Conn) : FramedCalls counts conn := by
  induction counts generalizing conn with
  | nil => trivial
  | cons count counts ih =>
    rw [List.mem_cons,not_or] at h
    have some := Nat.pos_of_ne_zero (Ne.symm h.1)
    rw [FramedCalls]
    cases hr : recv count conn with
    | mk result conn' =>
      cases result with
      | ok data => exact ⟨(recv_ok some hr).1,(recv_ok some hr).2,ih h.2 conn'⟩
      | error crash => exact recv_error some hr

lemma slices_of_pos (h : 0 ∉ counts) {slices : List (List UInt8)} {conn conn' : Conn}
    (hs : recvAll counts conn = (.ok slices,conn')) :
    slices.map List.length = counts ∧ Gives conn slices.flatten conn' := by
  induction counts generalizing slices conn with
  | nil =>
    cases hs
    exact ⟨rfl,0,rfl⟩
  | cons count counts ih =>
    rw [List.mem_cons,not_or] at h
    have some := Nat.pos_of_ne_zero (Ne.symm h.1)
    rw [recvAll] at hs
    cases hr : recv count conn with
    | mk result conn₁ =>
      rw [hr] at hs
      cases result with
      | error crash => cases hs
      | ok data =>
        obtain ⟨length,gives⟩ := recv_ok some hr
        cases hrest : recvAll counts conn₁ with
        | mk result conn₂ =>
          simp only [hrest] at hs
          cases result with
          | error crash => cases hs
          | ok slices =>
            cases hs
            obtain ⟨lengths,later⟩ := ih h.2 hrest
            refine ⟨?_,gives.trans later⟩
            rw [List.map_cons,length,lengths]

/-- Once the bytes are there, the calls before it return and the call that asks for none crashes. -/
lemma not_framedCalls {before : List ℕ} (after : List ℕ) (pos : 0 ∉ before)
    (arrived : before.sum ≤ conn.pending.length) : ¬FramedCalls (before ++ 0 :: after) conn := by
  intro h
  induction before generalizing conn with
  | nil =>
    rw [List.nil_append,FramedCalls] at h
    obtain ⟨crash,conn',hr⟩ := recv_zero conn
    rw [hr] at h
    obtain ⟨k,few,-⟩ := h.early
    exact Nat.not_lt_zero _ few
  | cons count before ih =>
    rw [List.mem_cons,not_or] at pos
    rw [List.sum_cons] at arrived
    rw [List.cons_append,FramedCalls] at h
    cases hr : recv count conn with
    | mk result conn' =>
      rw [hr] at h
      cases result with
      | error crash =>
        have few := h.late 0 (by simp [Conn.idle])
        rw [Conn.later] at few
        omega
      | ok data =>
        obtain ⟨length,⟨k,hk⟩,rest⟩ := h
        apply ih pos.2 _ rest
        have more := pending_le_later conn k
        rw [hk,Conn.prepend,List.length_append] at more
        omega

/-- For all streams and all ways in which they arrive, `recv` frames the calls exactly if none of
them asks for no bytes. -/
theorem recv_framed_iff (counts : List ℕ) : ((∀ conn, Framed counts conn) ↔ 0 ∉ counts) ∧
    ∀ count conn, Framed [count] conn ↔ count ≠ 0 := by
  have framed {counts : List ℕ} (h : 0 ∉ counts) (conn : Conn) : Framed counts conn :=
    ⟨framedCalls_of_pos h conn,fun _ _ => slices_of_pos h⟩
  constructor
  · refine ⟨?_,framed⟩
    intro h zero
    obtain ⟨before,after,rfl,first⟩ := List.eq_append_cons_of_mem zero
    exact not_framedCalls after first (by simp) (h ⟨List.replicate before.sum 0,false,.const {}⟩).calls
  · intro count conn
    constructor
    · rintro h rfl
      have zero : ¬FramedCalls ([] ++ 0 :: []) conn :=
        not_framedCalls [] List.not_mem_nil (Nat.zero_le _)
      exact zero h.calls
    · intro some
      exact framed (by simpa using some.symm) conn

/-- gem5 acknowledges the request for a log that is empty. -/
def emptyLog : Conn where
  pending := [0x9d,0x27,0x96,0x1b,0xce,0xb9,0xe9,0xa0,0,0,0,0,0,0,0,0]
  seconds := .const {}

theorem recv_not_framed : ¬Framed [16,0] emptyLog := by
  intro h
  have zero : ¬FramedCalls ([16] ++ 0 :: []) emptyLog := not_framedCalls [] (by decide) (by decide)
  exact zero h.calls

/-- Therefore `trace_test_case` never gets an empty log, whatever gem5 sends. -/
theorem reply_ne_nil (ack : ℕ) (conn : Conn) : (reply ack conn).1 ≠ .ok [] := by
  unfold reply
  cases recv 16 conn with
  | mk header conn₁ =>
    cases header with
    | error crash => simp
    | ok header =>
      dsimp only
      split_ifs
      · simp
      cases hr : recv (unpackWord (header.drop 8)) conn₁ with
      | mk log conn₂ =>
        cases log with
        | error crash => simp
        | ok log =>
          rcases Nat.eq_zero_or_pos (unpackWord (header.drop 8)) with zero | some
          · obtain ⟨crash,conn',hz⟩ := recv_zero conn₁
            rw [zero,hz] at hr
            cases hr
          · have length := (recv_ok some hr).1
            intro h
            cases h
            rw [← length] at some
            exact absurd some (by simp)

end Calls

end ProteanAmulet.Gem5IPCOrchestration
