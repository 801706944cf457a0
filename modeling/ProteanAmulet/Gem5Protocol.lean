import ProteanAmulet.Gem5Ipc
import ProteanAmulet.Library.SelfDelimiting
import Mathlib.Data.BitVec

/-! The messages between the orchestration and gem5: when replies arrive, the requests as bytes,
and the hash that confirms a test case. -/
namespace ProteanAmulet.Gem5IPCOrchestration
open SelfDelimiting

/-! ### Replies that arrive -/

/-- The same connection once all that has arrived is read. -/
def Conn.cleared (conn : Conn) : Conn := { conn with pending := [] }

/-- Some bytes arrive before the limit and nothing after them; the connection stays open. -/
def Arrives (conn : Conn) (bytes : List UInt8) : Prop :=
  ∃ k, conn.cleared.idle k<120 ∧
    ∀ m, k ≤ m → (conn.later m).pending = bytes ∧ (conn.later m).closed = false

section Arrivals
variable {conn conn' : Conn} {bytes data : List UInt8} {count : ℕ}

/-- The idle seconds of a wait, in two parts. -/
lemma idle_add (conn : Conn) (j m : ℕ) :
    conn.cleared.idle (j+m) = conn.cleared.idle j+(conn.later j).cleared.idle m := by
  induction j generalizing conn with
  | zero => rw [Nat.zero_add,Conn.idle,Nat.zero_add,Conn.later]
  | succ j ih =>
    have h : conn.cleared.wait.cleared.idle (j+m) =
        conn.cleared.wait.cleared.idle j+(conn.wait.later j).cleared.idle m := ih conn.wait
    rw [Nat.add_right_comm,Conn.idle,Conn.idle,Conn.later,Nat.add_assoc]
    exact congrArg _ h

lemma idle_le_cleared (conn : Conn) (k : ℕ) : conn.idle k ≤ conn.cleared.idle k := by
  cases k with
  | zero => exact le_rfl
  | succ k =>
    refine Nat.add_le_add_right ?_ _
    have ready : conn.cleared.wait.ready = true → conn.wait.ready = true := by
      unfold Conn.cleared Conn.wait Conn.ready
      cases conn.closed <;> simp
      tauto
    split_ifs with h h'
    · exact le_rfl
    · exact Nat.zero_le _
    · exact absurd (ready ‹_›) h
    · exact le_rfl

/-- What has been read arrived first. -/
lemma Arrives.rest (h : Arrives conn bytes) (hgives : Gives conn data conn') :
    ∃ rest, bytes = data ++ rest ∧ Arrives conn' rest := by
  obtain ⟨k,hidle,hk⟩ := h
  obtain ⟨j,hj⟩ := hgives
  have hlater : ∀ m, conn.later (j+m) = (conn'.later m).prepend data := by
    intro m
    rw [later_add,hj,later_prepend]
  refine ⟨(conn'.later (k-j)).pending,?_,k-j,?_,fun m hm => ?_⟩
  · have h := (hk (j+(k-j)) (by omega)).1
    rw [hlater] at h
    exact h.symm
  · have hcleared : (conn.later j).cleared = conn'.cleared := by
      rw [hj]
      rfl
    by_cases hjk : j ≤ k
    · have h := idle_add conn j (k-j)
      rw [Nat.add_sub_cancel' hjk,hcleared] at h
      omega
    · rw [Nat.sub_eq_zero_of_le (by omega),Conn.idle]
      exact Nat.zero_lt_succ _
  · obtain ⟨hpending,hclosed⟩ := hk (j+m) (by omega)
    obtain ⟨hpending',-⟩ := hk (j+(k-j)) (by omega)
    rw [hlater] at hpending hpending' hclosed
    refine ⟨?_,hclosed⟩
    exact List.append_cancel_left (hpending.trans hpending'.symm)

/-- A call that asks for bytes that arrive returns them. -/
lemma recv_arrives (h : Arrives conn bytes) (hpos : 0<count) (hle : count ≤ bytes.length) :
    ∃ conn', recv count conn = (.ok (bytes.take count),conn') ∧
      Arrives conn' (bytes.drop count) := by
  cases hr : recv count conn with
  | mk result conn' =>
    cases result with
    | error crash =>
      obtain ⟨k,hidle,hk⟩ := h
      have late := (recv_error hpos hr).late k ((idle_le_cleared conn k).trans_lt hidle)
      rw [(hk k le_rfl).1] at late
      exact absurd hle (Nat.not_le_of_lt late)
    | ok data =>
      obtain ⟨length,gives⟩ := recv_ok hpos hr
      obtain ⟨rest,rfl,harr⟩ := h.rest gives
      subst length
      rw [List.take_left' rfl,List.drop_left' rfl]
      exact ⟨conn',rfl,harr⟩

lemma closed_later (h : conn.closed) (k : ℕ) : (conn.later k).closed := by
  induction k generalizing conn with
  | zero => exact h
  | succ k ih =>
    have closed : conn.wait.closed := by simp [Conn.wait,h]
    exact ih closed

/-- Nothing arrives and the connection stays open. -/
def Silent (conn : Conn) : Prop := ∀ m, (conn.later m).pending = [] ∧ (conn.later m).closed = false

lemma Arrives.silent (h : Arrives conn []) : Silent conn := by
  obtain ⟨k,-,hk⟩ := h
  intro m
  obtain ⟨hpending,hclosed⟩ := hk (m+k) (Nat.le_add_left k m)
  constructor
  · have hle := pending_mono conn (Nat.le_add_right m k)
    rw [hpending] at hle
    exact List.length_eq_zero_iff.mp (Nat.le_zero.mp hle)
  · by_contra hopen
    rw [later_add,closed_later (by simpa using hopen)] at hclosed
    cases hclosed

/-- Where nothing arrives, every call runs into the limit. -/
lemma Silent.recvLoop (h : Silent conn) (timeSpent count : ℕ) (data : List UInt8) :
    ∃ conn', recvLoop timeSpent count data conn = (.error .deadlock,conn') := by
  induction hn : 120-timeSpent generalizing timeSpent conn with
  | zero =>
    rw [Gem5IPCOrchestration.recvLoop,if_neg (by omega)]
    exact ⟨_,rfl⟩
  | succ n ih =>
    have idle : conn.wait.ready = false := by
      obtain ⟨hpending,hclosed⟩ := h 1
      have hp : conn.wait.pending = [] := hpending
      have hc : conn.wait.closed = false := hclosed
      simp [Conn.ready,hp,hc]
    rw [Gem5IPCOrchestration.recvLoop,if_pos (by omega),idle,if_neg Bool.false_ne_true]
    exact ih (fun m => h (m+1)) _ (by omega)

end Arrivals

/-! ### Requests -/

def opInit : ℕ := 0xd09e95bc2c73ad66
def opAckInit : ℕ := 0xc4f991d25774a0ac
def opLoadTestCase : ℕ := 0xf06e27858611c27a
def opAckTestCase : ℕ := 0x847431e37076fb26
def opTraceTestCase : ℕ := 0x9ca711a73355bea
def opAckTraceTestCase : ℕ := 0xc1f8bc29862ef946
def opResetLog : ℕ := 0x7e310c4276780c9b
def opGetBranchPredictorState : ℕ := 0x98df1da695dd7afe
def opAckBranchPredictorState : ℕ := 0x7d5cc0725ba80cf4
def opResetBranchPredictor : ℕ := 0xcd0b48f441b827af
def opEnableBranchPredictionLog : ℕ := 0x3604820624f5dd0a
def opGetBranchPredictionLog : ℕ := 0xa0ce930078391e8d
def opAckBranchPredictionLog : ℕ := 0xfccf2948b05f1841
def opEnableAccessLog : ℕ := 0x705c94b0572c79e2
def opGetAccessLog : ℕ := 0x6cedeb82908d6957
def opAckAccessLog : ℕ := 0xa0e9b9ce1b96279d
def opResetCommitLog : ℕ := 0xdeadbeefbaddecaf
def opGetCommitLog : ℕ := 0xfeedfacefeedface

/-- `struct.pack('QQ..', ..)`. -/
def pack (words : List ℕ) : List UInt8 := words.flatMap (wordBytes 8)

/-- The word at an index of `struct.unpack('QQ..', ..)`. -/
def word (i : ℕ) (bytes : List UInt8) : ℕ := unpackWord ((bytes.drop (8*i)).take 8)

/-- The requests that gem5 does not answer. -/
inductive Command where
  | resetLog
  | resetBranchPredictor
  | enableBranchPredictionLog
  | enableAccessLog
  | resetCommitLog
  deriving DecidableEq

def Command.op : Command → ℕ
  | .resetLog => opResetLog
  | .resetBranchPredictor => opResetBranchPredictor
  | .enableBranchPredictionLog => opEnableBranchPredictionLog
  | .enableAccessLog => opEnableAccessLog
  | .resetCommitLog => opResetCommitLog

/-- The requests for something that gem5 has recorded. -/
inductive Query where
  | branchPredictorState
  | branchPredictionLog
  | accessLog
  | commitLog
  deriving DecidableEq

namespace Query

def op : Query → ℕ
  | .branchPredictorState => opGetBranchPredictorState
  | .branchPredictionLog => opGetBranchPredictionLog
  | .accessLog => opGetAccessLog
  | .commitLog => opGetCommitLog

/-- The operation in front of the reply, with its name. The request for the commits is its own
acknowledgement. -/
def ack : Query → String × ℕ
  | .branchPredictorState => ("OP_ACK_BRANCH_PREDICTOR_STATE",opAckBranchPredictorState)
  | .branchPredictionLog => ("OP_ACK_BRANCH_PREDICTION_LOG",opAckBranchPredictionLog)
  | .accessLog => ("OP_ACK_ACCESS_LOG",opAckAccessLog)
  | .commitLog => ("OP_GET_COMMIT_LOG",opGetCommitLog)

end Query

/-- What the orchestration sends to gem5. -/
inductive Request where
  | init
  | loadTestCase (case : List UInt8)
  | traceTestCase (registerStart inputHash : ℕ) (input : List UInt8)
  | tell (command : Command)
  | get (query : Query)
  deriving DecidableEq

namespace Request

/-- The requests that are nothing but an operation. -/
def plain : List (ℕ × Request) :=
  (opInit,.init) ::
    ([Command.resetLog,.resetBranchPredictor,.enableBranchPredictionLog,.enableAccessLog,
      .resetCommitLog].map fun command => (command.op,.tell command)) ++
    [Query.branchPredictorState,.branchPredictionLog,.accessLog,.commitLog].map fun query =>
      (query.op,.get query)

/-- The bytes that are sent for a request. -/
def bytes : Request → List UInt8
  | .init => pack [opInit]
  | .loadTestCase case => pack [opLoadTestCase,case.length] ++ case
  | .traceTestCase registerStart inputHash input =>
    pack [opTraceTestCase,input.length,registerStart*8,inputHash] ++ input
  | .tell command => pack [command.op]
  | .get query => pack [query.op]

/-- Some bytes of a known number, if they are all there. -/
def splitBytes (n : ℕ) (bs : List UInt8) : Option (List UInt8 × List UInt8) :=
  if bs.length<n then none else some (bs.take n,bs.drop n)

/-- The first request in what gem5 has received. It is the purpose of the format, stated here as
gem5 can read it. -/
def parse (bs : List UInt8) : Option (Request × List UInt8) := do
  let (op,bs) ← splitWord 8 bs
  if op = opLoadTestCase then
    let (n,bs) ← splitWord 8 bs
    let (case,bs) ← splitBytes n bs
    return (.loadTestCase case,bs)
  else if op = opTraceTestCase then
    let (n,bs) ← splitWord 8 bs
    let (start,bs) ← splitWord 8 bs
    let (hash,bs) ← splitWord 8 bs
    let (input,bs) ← splitBytes n bs
    return (.traceTestCase (start/8) hash input,bs)
  else (plain.lookup op).map (·,bs)

/-- The numbers fit into words. -/
def Fits : Request → Prop
  | .loadTestCase case => case.length<2^64
  | .traceTestCase registerStart inputHash input =>
    input.length<2^64 ∧ registerStart*8<2^64 ∧ inputHash<2^64
  | _ => True

end Request

section Requests

lemma splitWord_pack {n : ℕ} (h : n<2^64) (ns : List ℕ) (rest : List UInt8) :
    splitWord 8 (pack (n :: ns) ++ rest) = some (n,pack ns ++ rest) := by
  rw [pack,List.flatMap_cons,List.append_assoc]
  exact splitWord_undoes 8 n (by simpa using h) _

lemma splitBytes_append (bs rest : List UInt8) :
    Request.splitBytes bs.length (bs ++ rest) = some (bs,rest) := by
  simp [Request.splitBytes]

/-- Every request is read back, whatever follows it. -/
theorem Request.parse_bytes : Undoes Request.parse Request.bytes Request.Fits := by
  have plain : ∀ op r rest, op<2^64 → op ≠ opLoadTestCase → op ≠ opTraceTestCase →
      Request.plain.lookup op = some r → Request.parse (pack [op] ++ rest) = some (r,rest) := by
    intro op r rest hop hload htrace hr
    rw [Request.parse,splitWord_pack hop]
    simp only [Option.bind_eq_bind,Option.bind_some,if_neg hload,if_neg htrace,hr]
    rfl
  intro r hr rest
  cases r with
  | loadTestCase case =>
    rw [Request.bytes,List.append_assoc,Request.parse,splitWord_pack (by decide)]
    simp only [Option.bind_eq_bind,Option.bind_some,if_true,splitWord_pack hr]
    change (Request.splitBytes case.length (case ++ rest)).bind _ = _
    rw [splitBytes_append]
    rfl
  | traceTestCase registerStart inputHash input =>
    obtain ⟨hn,hs,hh⟩ := hr
    rw [Request.bytes,List.append_assoc,Request.parse,splitWord_pack (by decide)]
    simp only [Option.bind_eq_bind,Option.bind_some,if_true,splitWord_pack hn,splitWord_pack hs,
      splitWord_pack hh]
    rw [if_neg (by decide)]
    change (Request.splitBytes input.length (input ++ rest)).bind _ = _
    rw [splitBytes_append,Nat.mul_div_cancel _ (by decide)]
    rfl
  | init => exact plain _ _ rest (by decide) (by decide) (by decide) (by decide)
  | tell command =>
    cases command <;> exact plain _ _ rest (by decide) (by decide) (by decide) (by decide)
  | get query => cases query <;> exact plain _ _ rest (by decide) (by decide) (by decide) (by decide)

/-- What is sent determines the requests: gem5 needs no separators between them. -/
theorem Request.bytes_injective {requests requests' : List Request} (fits : ∀ r ∈ requests, r.Fits)
    (fits' : ∀ r ∈ requests', r.Fits)
    (heq : requests.flatMap Request.bytes = requests'.flatMap Request.bytes) : requests = requests' :=
  Request.parse_bytes.flatMap_injective rfl fits fits' heq

end Requests

/-! ### The hash -/

def hashMultiplier : ℕ := 0x21f782547ea34f3d

/-- One turn of the loop of `hash_bytes`; the numbers are masked to 64 bits. -/
def hashStep (h : BitVec 64) (byte : UInt8) : BitVec 64 :=
  (h+BitVec.ofNat 64 byte.toNat)*BitVec.ofNat 64 hashMultiplier

def hashFrom (h : BitVec 64) (bytes : List UInt8) : BitVec 64 := bytes.foldl hashStep h

def hashBytes (bytes : List UInt8) : ℕ := (hashFrom 0xbb7524eafb93804b bytes).toNat

section Hash

/-- The multiplier is odd. -/
lemma mul_cancel {x y : BitVec 64}
    (h : x*BitVec.ofNat 64 hashMultiplier = y*BitVec.ofNat 64 hashMultiplier) : x=y := by
  have inverse : BitVec.ofNat 64 hashMultiplier*0x36c57e8d18ac8015#64 = 1#64 := by decide
  have := congrArg (· * 0x36c57e8d18ac8015#64) h
  simpa only [BitVec.mul_assoc,inverse,BitVec.mul_one] using this

lemma hashStep_injective (byte : UInt8) : Function.Injective (hashStep · byte) :=
  fun _ _ h => BitVec.add_left_inj _ |>.mp (mul_cancel h)

/-- Different states stay different. -/
lemma hashFrom_injective (bytes : List UInt8) : Function.Injective (hashFrom · bytes) := by
  induction bytes with
  | nil => exact fun _ _ h => h
  | cons byte bytes ih =>
    intro h h' heq
    exact hashStep_injective byte (ih heq)

/-- The multiples of the multiplier by a difference of bytes are far from each other. -/
lemma spaced : ∀ d<256, 0<d →
    255<d*hashMultiplier % 2^64 ∧ d*hashMultiplier % 2^64<2^64-255 := by decide +kernel

lemma not_near {a a' b b' : ℕ} (hlt : a<a') (ha' : a'<256) (hb : b<256) (hb' : b'<256) :
    (a*hashMultiplier+b) % 2^64 ≠ (a'*hashMultiplier+b') % 2^64 := by
  obtain ⟨d,rfl⟩ := Nat.exists_eq_add_of_lt hlt
  obtain ⟨low,high⟩ := spaced (d+1) (by omega) (Nat.succ_pos d)
  rw [Nat.add_assoc,Nat.add_mul]
  generalize (d+1)*hashMultiplier = x at *
  generalize a*hashMultiplier = y
  omega

lemma toNat_line (a b : UInt8) : (BitVec.ofNat 64 a.toNat*BitVec.ofNat 64 hashMultiplier+
    BitVec.ofNat 64 b.toNat).toNat = (a.toNat*hashMultiplier+b.toNat) % 2^64 := by
  rw [← BitVec.ofNat_mul,← BitVec.ofNat_add,BitVec.toNat_ofNat]

/-- Two bytes next to each other can be told from their hash. -/
lemma hashStep_two {h : BitVec 64} {a b a' b' : UInt8}
    (heq : hashStep (hashStep h a) b = hashStep (hashStep h a') b') : a=a' ∧ b=b' := by
  have num : (a.toNat*hashMultiplier+b.toNat) % 2^64 =
      (a'.toNat*hashMultiplier+b'.toNat) % 2^64 := by
    have eq := mul_cancel heq
    rw [hashStep,hashStep,BitVec.add_mul,BitVec.add_mul,BitVec.add_assoc,BitVec.add_assoc,
      BitVec.add_right_inj] at eq
    rw [← toNat_line,← toNat_line,eq]
  have hb := b.toNat_lt
  have hb' := b'.toNat_lt
  rcases Nat.lt_trichotomy a.toNat a'.toNat with hlt | heq | hgt
  · exact absurd num (not_near hlt a'.toNat_lt hb hb')
  · refine ⟨UInt8.toNat_inj.mp heq,UInt8.toNat_inj.mp ?_⟩
    rw [heq] at num
    generalize a'.toNat*hashMultiplier = y at num
    omega
  · exact absurd num.symm (not_near hgt a.toNat_lt hb' hb)

/-- A change of one byte, or of two bytes next to each other, changes the hash. -/
lemma hashBytes_window {pre post window window' : List UInt8}
    (hlen : window.length=window'.length) (hle : window.length ≤ 2)
    (heq : hashBytes (pre ++ window ++ post) = hashBytes (pre ++ window' ++ post)) :
    window=window' := by
  have step : hashFrom (hashFrom 0xbb7524eafb93804b pre) window =
      hashFrom (hashFrom 0xbb7524eafb93804b pre) window' := by
    apply hashFrom_injective post
    simpa only [hashBytes,hashFrom,List.foldl_append] using BitVec.eq_of_toNat_eq heq
  match window, window', hlen, hle with
  | [], [], _, _ => rfl
  | [a], [a'], _, _ =>
    have two : hashStep (hashStep (hashFrom 0xbb7524eafb93804b pre) a) 0 =
        hashStep (hashStep (hashFrom 0xbb7524eafb93804b pre) a') 0 := congrArg (hashStep · 0) step
    rw [(hashStep_two two).1]
  | [a,b], [a',b'], _, _ =>
    obtain ⟨rfl,rfl⟩ := hashStep_two step
    rfl

end Hash

end ProteanAmulet.Gem5IPCOrchestration
