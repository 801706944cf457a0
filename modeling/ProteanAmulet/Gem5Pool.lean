import ProteanAmulet.Gem5Session

/-! The pool of gem5 processes over whole sessions, whatever the processes answer and however the
network treats their replies: also after exceptions that somebody has caught. -/
namespace ProteanAmulet.Gem5IPCOrchestration
open X86Gem5 Program

/-- What always holds of the processes. No connection outlives its process. -/
structure Pool {χ σ : Type} (w : World χ σ) (c : Client χ σ) : Prop where
  nodup : c.pids.Nodup
  small : ∀ pid ∈ c.pids, 0<pid ∧ pid<2^64
  size : c.processes.length ≤ w.parallelism
  active : c.activeProcess = 0 ∨ c.activeProcess ∈ c.pids
  link : ∀ l ∈ c.link, l.pid ∈ c.pids

section Pools
variable {χ σ : Type} {w : World χ σ} {c : Client χ σ}

lemma killActive_lastCase (c : Client χ σ) : c.killActive.lastCase = c.lastCase := by
  unfold Client.killActive
  split <;> rfl

lemma killActive_active (c : Client χ σ) : c.killActive.activeProcess = 0 := by
  unfold Client.killActive
  split
  · assumption
  · rfl

/-- The active process is not in the pool any more. -/
lemma killActive_processes (h : Pool w c) : c.killActive.processes =
    c.processes.filter (·.1 ≠ c.activeProcess) := by
  unfold Client.killActive
  split
  · rename_i h0
    symm
    rw [List.filter_eq_self]
    intro p hp
    have := (h.small p.1 (List.mem_map_of_mem hp)).1
    simp only [decide_eq_true_eq,h0]
    omega
  · rfl

lemma Pool.killActive (h : Pool w c) : Pool w c.killActive := by
  have sub : c.killActive.pids.Sublist c.pids := by
    rw [Client.pids,killActive_processes h]
    exact List.filter_sublist.map _
  refine ⟨h.nodup.sublist sub,fun pid hp => h.small pid (sub.subset hp),?_,
    .inl (killActive_active c),?_⟩
  · rw [killActive_processes h]
    exact (List.length_filter_le _ _).trans h.size
  · unfold Client.killActive
    split
    · exact h.link
    · exact nofun

lemma startNew_pids (w : World χ σ) (cmd : χ) (c : Client χ σ) :
    (c.startNew w cmd).pids = c.pids ++ [w.spawn c.moment c.pids] := by
  simp [Client.startNew,Client.pids]

lemma Pool.startNew (h : Pool w c) (cmd : χ) (hlt : c.processes.length<w.parallelism) :
    Pool w (c.startNew w cmd) := by
  obtain ⟨fresh,pos,lt⟩ := w.spawn_new c.moment c.pids (by simpa [Client.pids] using hlt)
  refine ⟨?_,?_,?_,?_,?_⟩
  · rw [startNew_pids,List.nodup_append_comm,List.singleton_append,List.nodup_cons]
    exact ⟨fresh,h.nodup⟩
  · intro pid hp
    rw [startNew_pids,List.mem_append,List.mem_singleton] at hp
    rcases hp with hp | rfl
    · exact h.small pid hp
    · exact ⟨pos,lt⟩
  · rw [Client.startNew,List.length_append]
    exact hlt
  · rw [startNew_pids,List.mem_append]
    exact h.active.imp_right .inl
  · intro l hl
    rw [startNew_pids,List.mem_append]
    exact .inl (h.link l hl)

/-- The pool is filled up, with processes of one command. -/
lemma Pool.refill (h : Pool w c) (cmd : χ) {n : ℕ} (hn : c.processes.length+n = w.parallelism) :
    Pool w (c.refill w cmd n) ∧ (c.refill w cmd n).processes.length = w.parallelism ∧
      (c.refill w cmd n).lastCase = c.lastCase ∧
      (c.refill w cmd n).activeProcess = c.activeProcess ∧
      ∀ p ∈ (c.refill w cmd n).processes, p ∈ c.processes ∨ p.2=cmd := by
  induction n generalizing c with
  | zero => exact ⟨h,hn,rfl,rfl,fun _ => .inl⟩
  | succ n ih =>
    have len : (c.startNew w cmd).processes.length = c.processes.length+1 := by
      simp [Client.startNew]
    obtain ⟨hp,hlen,hcase,hactive,hcmd⟩ := ih (h.startNew cmd (by omega)) (by omega)
    refine ⟨hp,hlen,hcase,hactive,fun p hp => ?_⟩
    rcases hcmd p hp with hold | hnew
    · rw [Client.startNew,List.mem_append,List.mem_singleton] at hold
      rcases hold with hold | rfl
      · exact .inl hold
      · exact .inr rfl
    · exact .inr hnew

lemma lookup_mem {processes : List (ℕ × χ)} {pid : ℕ} (h : pid ∈ processes.map (·.1)) :
    ∃ cmd, processes.lookup pid = some cmd ∧ (pid,cmd) ∈ processes := by
  cases hl : processes.lookup pid with
  | none =>
    obtain ⟨p,hp,rfl⟩ := List.mem_map.mp h
    rw [List.lookup_eq_none_iff] at hl
    exact absurd (hl p hp) (by simp)
  | some cmd =>
    obtain ⟨before,after,rfl,-⟩ := List.lookup_eq_some_iff.mp hl
    exact ⟨cmd,rfl,by simp⟩

end Pools

/-! ### What a call preserves -/

/-- A property of the client that sending, receiving and reading the output cannot change. -/
structure Inert {χ σ : Type} (I : Client χ σ → Prop) : Prop where
  link : ∀ {c l l' stdout t}, I c → c.link = some l → l'.pid = l.pid →
    I { c with link := some l', stdout := stdout, moment := t }
  stdout : ∀ {c stdout}, I c → I { c with stdout := stdout }
  lastCase : ∀ {c case}, I c → I { c with lastCase := some case }

section Preserving
variable {τ : Type} {I : τ → Prop}

lemma preserves_onlyIf (b : Bool) {p : Program τ IpcError Unit} (h : Preserves I p) :
    Preserves I (onlyIf b p) := .ite h (.pure ())

lemma preserves_added (b : Bool) {p : Program τ IpcError (List Char)} (h : Preserves I p) :
    Preserves I (added b p) := .ite h (.pure [])

lemma preserves_lift {α : Type} (result : Except IpcError α) :
    Preserves I (lift result : Program τ IpcError α) := fun _ h => h

lemma preserves_traceTestCase {conf : Conf} {x : Exchange τ} (tell : ∀ command, Preserves I (x.tell command))
    (sent : ∀ registerStart inputHash input, Preserves I (x.input registerStart inputHash input))
    (get : ∀ query, Preserves I (x.get query)) (input : Input conf) (sources : List Source) :
    Preserves I (traceTestCase x input sources) := by
  have tell (b : Bool) (command : Command) := preserves_onlyIf b (tell command)
  refine (tell _ _).bind fun _ => (tell _ _).bind fun _ => (tell _ _).bind fun _ => ?_
  refine (tell _ _).bind fun _ => (sent _ _ _).bind fun tags => ?_
  refine (preserves_lift _).bind fun trace => (preserves_added _ ?_).bind fun state => ?_
  · exact (get _).bind fun _ => (preserves_lift _).bind fun _ => .pure _
  refine (preserves_added _ ?_).bind fun predicted => ?_
  · exact (get _).bind fun _ => (preserves_lift _).bind fun _ => (preserves_lift _).bind fun _ => .pure _
  refine (preserves_added _ ?_).bind fun accesses => ?_
  · exact (get _).bind fun _ => (preserves_lift _).bind fun _ => (preserves_lift _).bind fun _ => .pure _
  refine (preserves_added _ ?_).bind fun commits => .pure _
  exact (get _).bind fun _ => (preserves_lift _).bind fun _ => .pure _

end Preserving

namespace Inert
variable {χ σ : Type} {w : World χ σ} {I : Client χ σ → Prop} (hI : Inert I)
include hI

lemma send (bytes : List UInt8) : Preserves I (send w bytes) := by
  intro c hc
  rw [Gem5IPCOrchestration.send]
  cases hl : c.link with
  | none => exact hc
  | some l => exact hI.link hc hl rfl

lemma receive (count : ℕ) : Preserves I (receive count) := by
  intro c hc
  rw [Gem5IPCOrchestration.receive]
  cases hl : c.link with
  | none => exact hc
  | some l =>
    dsimp only
    split
    · exact hI.link hc hl rfl
    · exact hI.link hc hl rfl

lemma header (words : ℕ) (name : String) (ack : ℕ) : Preserves I (header words name ack) :=
  (hI.receive _).bind fun _ => .ite (.raise _) (.pure _)

lemma sendInput (registerStart inputHash : ℕ) (input : List UInt8) :
    Preserves I (sendInput w registerStart inputHash input) :=
  (hI.send _).bind fun _ => (hI.header _ _ _).bind fun _ => .ite (.raise _) (hI.receive _)

lemma get (query : Query) : Preserves I (get w query) :=
  (hI.send _).bind fun _ => (hI.header _ _ _).bind fun _ => hI.receive _

lemma loadTestCase (case : List UInt8) : Preserves I (loadTestCase w case) := by
  intro c hc
  rw [Gem5IPCOrchestration.loadTestCase]
  split
  · exact hI.lastCase hc
  · exact ((hI.send _).bind fun _ => (hI.header _ _ _).bind fun _ => .ite (.raise _) (.pure _)) _
      (hI.lastCase hc)

lemma loadLastCase : Preserves I (loadLastCase w) := by
  intro c hc
  rw [Gem5IPCOrchestration.loadLastCase]
  split
  · exact hc
  · exact hI.loadTestCase _ c hc

lemma output : Preserves I output := by
  intro c hc
  rw [Gem5IPCOrchestration.output]
  split
  · split
    · exact hc
    · exact hI.stdout hc
  · exact hc

lemma traceTestCase {conf : Conf} (input : Input conf) (sources : List Source) :
    Preserves I (traceTestCase (wire w) input sources) :=
  preserves_traceTestCase (fun command => hI.send (Request.tell command).bytes) hI.sendInput hI.get
    input sources

end Inert

section Invariant
variable {χ σ : Type} {w : World χ σ} {conf : Conf}

lemma pool_inert (w : World χ σ) : Inert (Pool w) where
  link := by
    intro c l l' stdout t hc hl hpid
    refine ⟨hc.nodup,hc.small,hc.size,hc.active,fun l₁ hl₁ => ?_⟩
    obtain rfl := Option.some.inj hl₁
    rw [hpid]
    exact hc.link l hl
  stdout hc := ⟨hc.nodup,hc.small,hc.size,hc.active,hc.link⟩
  lastCase hc := ⟨hc.nodup,hc.small,hc.size,hc.active,hc.link⟩

/-- Filling the pool up. -/
lemma renewPool_full {c : Client χ σ} (h : Pool w c) (cmd : χ) :
    Pool w (renewPool w cmd c).2 ∧ (renewPool w cmd c).2.processes.length = w.parallelism := by
  have filled := h.killActive.refill cmd (Nat.add_sub_cancel' h.killActive.size)
  exact ⟨filled.1,filled.2.1⟩

lemma preserves_connect : Preserves (Pool w) (connect w) := by
  intro c hc
  rw [connect]
  split
  · exact ⟨hc.nodup,hc.small,hc.size,hc.active,hc.link⟩
  · rename_i pid hready
    split
    · exact hc
    · refine ⟨hc.nodup,hc.small,hc.size,hc.active,fun l hl => ?_⟩
      obtain rfl := Option.some.inj hl
      exact w.ready_mem hready

lemma preserves_activate (pid : ℕ) : Preserves (Pool w) (activate pid) := by
  intro c hc
  rw [activate]
  split
  · exact ⟨hc.nodup,hc.small,hc.size,.inr ‹_›,hc.link⟩
  · exact hc

lemma preserves_restart (cmd : χ) : Preserves (Pool w) (restartGem5 w cmd) := by
  have inert := pool_inert w
  refine Preserves.bind (fun c hc => (renewPool_full hc cmd).1) fun _ => ?_
  refine preserves_connect.bind fun _ => Preserves.bind ?_ fun _ => inert.loadLastCase
  exact (inert.send _).bind fun _ => (inert.header _ _ _).bind fun _ => preserves_activate _

lemma preserves_call (a : Call χ conf) : Preserves (Pool w) (call (orchestration w) a) := by
  have inert := pool_inert w
  cases a with
  | restart cmd => exact (preserves_restart cmd).bind fun _ => .pure []
  | load case => exact (inert.loadTestCase case).bind fun _ => .pure []
  | resetLog => exact (inert.send _).bind fun _ => .pure []
  | trace input sources => exact inert.traceTestCase input sources
  | output => exact inert.output

lemma pool_after_calls (calls : List (Call χ conf)) {c : Client χ σ} (h : Pool w c) :
    Pool w (after (orchestration w) calls c) := by
  induction calls generalizing c with
  | nil => exact h
  | cons a calls ih => exact ih (preserves_call a c h)

/-- The processes and the active one among them. -/
lemma processes_inert (processes : List (ℕ × χ)) (pid : ℕ) :
    Inert fun c : Client χ σ => c.processes = processes ∧ c.activeProcess = pid where
  link hc _ _ := hc
  stdout hc := hc
  lastCase hc := hc

/-- A restart that returns has made one process of a full pool the active one. -/
lemma restart_full {c c' : Client χ σ} (h : Pool w c) {cmd : χ}
    (hr : restartGem5 w cmd c = (.ok (),c')) :
    c'.processes.length = w.parallelism ∧ c'.activeProcess ∈ c'.pids := by
  obtain ⟨_,c₀,hrenew,hr⟩ := bind_eq_ok.mp hr
  obtain ⟨_,c₁,hconnect,hr⟩ := bind_eq_ok.mp hr
  obtain ⟨_,c₂,hregister,hload⟩ := bind_eq_ok.mp hr
  obtain ⟨_,c₃,hsend,hregister⟩ := bind_eq_ok.mp hregister
  obtain ⟨bytes,c₄,hheader,hactivate⟩ := bind_eq_ok.mp hregister
  have full : c₀.processes.length = w.parallelism := by
    have := (renewPool_full h cmd).2
    rwa [hrenew] at this
  have connected : c₁.processes = c₀.processes := by
    rw [connect] at hconnect
    split at hconnect
    · cases hconnect
    · split at hconnect
      · cases hconnect
      · cases hconnect
        rfl
  have inert := processes_inert (σ := σ) c₁.processes c₁.activeProcess
  have h₃ := inert.send (w := w) Request.init.bytes c₁ ⟨rfl,rfl⟩
  rw [hsend] at h₃
  have h₄ := inert.header 2 "OP_ACK_INIT" opAckInit c₃ h₃
  rw [hheader] at h₄
  have activated : c₂.processes = c₄.processes ∧ c₂.activeProcess ∈ c₂.pids := by
    rw [activate] at hactivate
    split at hactivate
    · cases hactivate
      exact ⟨rfl,‹_›⟩
    · cases hactivate
  have h' := (processes_inert (σ := σ) c₂.processes c₂.activeProcess).loadLastCase (w := w) c₂ ⟨rfl,rfl⟩
  rw [hload] at h'
  rw [Client.pids,h'.1,h'.2]
  refine ⟨?_,activated.2⟩
  rw [activated.1,h₄.1,connected,full]

end Invariant

/-- Whatever is called and whatever happens, no two processes have one number, there are never more
of them than asked for, and the active one and the one that is connected are among them. A restart
that returns leaves exactly as many as asked for. -/
theorem pool_invariant {χ σ : Type} (w : World χ σ) {conf : Conf} (calls : List (Call χ conf)) :
    Pool w (after (orchestration w) calls {}) ∧
    ∀ cmd c, restartGem5 w cmd (after (orchestration w) calls {}) = (.ok (),c) →
      c.processes.length = w.parallelism ∧ c.activeProcess ∈ c.pids := by
  have new : Pool w {} := ⟨List.nodup_nil,nofun,Nat.zero_le _,.inl rfl,nofun⟩
  have pool := pool_after_calls calls new
  exact ⟨pool,fun cmd c hr => restart_full pool hr⟩

end ProteanAmulet.Gem5IPCOrchestration
