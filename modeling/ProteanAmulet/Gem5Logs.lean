import ProteanAmulet.Gem5Session

/-! What an attacker sees in the logs of branch predictions and accesses: the entries that belong to
the test case, in their order, and their ticks only if a source with timing was asked for. -/
namespace ProteanAmulet.Gem5IPCOrchestration

/-- An entry of a log as gem5 writes it. -/
structure LogEntry where
  tick : List Char
  rest : List Char
  digits : ∀ c ∈ tick, c.isDigit
  whole : ';' ∉ rest
  located : (searchPc rest).isSome

namespace LogEntry

def text (e : LogEntry) : List Char := "tick:".toList ++ (e.tick ++ ',' :: e.rest)

def pc (e : LogEntry) : ℕ := (searchPc e.rest).get e.located

/-- The entry is of an instruction of the test case. -/
def Inside (e : LogEntry) : Prop := codeAddrStart ≤ e.pc ∧ e.pc<codeAddrEnd

instance (e : LogEntry) : Decidable e.Inside := inferInstanceAs (Decidable (_ ∧ _))

/-- What is kept of an entry. -/
def kept (timing : Bool) (e : LogEntry) : List Char :=
  if timing then e.text else ',' :: e.rest

/-- What can be seen of an entry. -/
def view (timing : Bool) (e : LogEntry) : List Char × List Char :=
  (if timing then e.tick else [],e.rest)

end LogEntry

/-- The parts of a log that are not empty are such entries. -/
def Recorded (log : List Char) (entries : List LogEntry) : Prop :=
  (log.splitOn ';').filter (· ≠ []) = entries.map LogEntry.text

instance (log : List Char) (entries : List LogEntry) : Decidable (Recorded log entries) :=
  inferInstanceAs (Decidable (_ = _))

section Entries
variable {timing : Bool} {e e' : LogEntry}

/-- The pattern does not begin in a text without its first letter. -/
lemma searchPc_append {before : List Char} (h : 'p' ∉ before) (text : List Char) :
    searchPc (before ++ text) = searchPc text := by
  induction before with
  | nil => rfl
  | cons c before ih =>
    rw [List.mem_cons,not_or] at h
    have other : Text.afterPrefix "pc:0x".toList (c :: (before ++ text)) = none := by
      rw [Text.afterPrefix,if_neg]
      simpa [List.isPrefixOf] using fun first => absurd first h.1
    rw [List.cons_append,searchPc,matchPc,other,ih h.2]
    rfl

lemma tick_no (e : LogEntry) {c : Char} (h : ¬c.isDigit) : c ∉ e.tick :=
  fun hc => h (e.digits c hc)

lemma searchPc_text (e : LogEntry) : searchPc e.text = some e.pc := by
  have before : 'p' ∉ "tick:".toList ++ (e.tick ++ [',']) := by
    have := tick_no e (c := 'p') (by decide)
    simpa using this
  have split : e.text = ("tick:".toList ++ (e.tick ++ [','])) ++ e.rest := by
    simp [LogEntry.text]
  rw [split,searchPc_append before,LogEntry.pc,Option.some_get]

/-- The tick ends where the comma stands. -/
lemma comma_first (e : LogEntry) : ∀ c ∈ e.tick, decide (c ≠ ',') = true := by
  intro c hc
  rw [decide_eq_true_eq]
  rintro rfl
  exact tick_no e (by decide) hc

lemma dropWhile_text (e : LogEntry) : e.text.dropWhile (· ≠ ',') = ',' :: e.rest := by
  have all : ∀ c ∈ "tick:".toList ++ e.tick, decide (c ≠ ',') = true := by
    rw [List.forall_mem_append]
    exact ⟨by decide,comma_first e⟩
  rw [LogEntry.text,← List.append_assoc,List.dropWhile_append_of_pos all]
  simp

lemma takeWhile_tick (e : LogEntry) : (e.tick ++ ',' :: e.rest).takeWhile (· ≠ ',') = e.tick := by
  rw [List.takeWhile_append_of_pos (comma_first e)]
  simp

lemma filterEntry_text (timing : Bool) (e : LogEntry) :
    filterEntry timing e.text = .ok (if e.Inside then [e.kept timing] else []) := by
  have comma : ',' ∈ e.text := by simp [LogEntry.text]
  rw [filterEntry,searchPc_text]
  cases timing with
  | true => rfl
  | false =>
    have tick : "tick:".toList <+: e.text := List.prefix_append _ _
    dsimp only
    rw [if_neg Bool.false_ne_true,if_neg (not_not.mpr tick),if_neg (not_not.mpr comma),
      dropWhile_text]
    rfl

lemma text_ne_nil (e : LogEntry) : e.text ≠ [] := List.cons_ne_nil _ _

lemma kept_ne_nil (timing : Bool) (e : LogEntry) : e.kept timing ≠ [] := by
  cases timing with
  | true => exact text_ne_nil e
  | false => exact List.cons_ne_nil _ _

lemma text_whole (e : LogEntry) : ';' ∉ e.text := by
  have := tick_no e (c := ';') (by decide)
  simpa [LogEntry.text,e.whole] using this

lemma kept_whole (timing : Bool) (e : LogEntry) : ';' ∉ e.kept timing := by
  cases timing with
  | true => exact text_whole e
  | false => simpa [LogEntry.kept] using e.whole

/-- The text that is kept of an entry shows what can be seen, and no more. -/
lemma kept_eq_iff : e.kept timing = e'.kept timing ↔ e.view timing = e'.view timing := by
  cases timing with
  | true =>
    change "tick:".toList ++ (e.tick ++ ',' :: e.rest) = "tick:".toList ++ (e'.tick ++ ',' :: e'.rest) ↔
      (e.tick,e.rest) = (e'.tick,e'.rest)
    rw [List.append_cancel_left_eq,Prod.mk.injEq]
    constructor
    · intro h
      have first := congrArg (List.takeWhile (· ≠ ',')) h
      rw [takeWhile_tick,takeWhile_tick] at first
      rw [first,List.append_cancel_left_eq,List.cons.injEq] at h
      exact ⟨first,h.2⟩
    · rintro ⟨htick,hrest⟩
      rw [htick,hrest]
  | false =>
    change ',' :: e.rest = ',' :: e'.rest ↔ (([] : List Char),e.rest) = ([],e'.rest)
    rw [List.cons.injEq,Prod.mk.injEq]
    simp

end Entries

section Logs
variable {timing : Bool} {log log' : List Char} {entries entries' : List LogEntry}

/-- Empty parts are skipped. -/
lemma filterEntries_filter (parts : List (List Char)) :
    filterEntries timing (parts.filter (· ≠ [])) = filterEntries timing parts := by
  induction parts with
  | nil => rfl
  | cons part parts ih =>
    by_cases h : part = []
    · rw [List.filter_cons_of_neg (by simpa using h),ih,filterEntries,if_pos h]
      cases filterEntries timing parts <;> rfl
    · rw [List.filter_cons_of_pos (by simpa using h),filterEntries,filterEntries,ih]

lemma filterEntries_text (entries : List LogEntry) :
    filterEntries timing (entries.map LogEntry.text) =
      .ok ((entries.filter (·.Inside)).map (LogEntry.kept timing)) := by
  induction entries with
  | nil => rfl
  | cons e entries ih =>
    rw [List.map_cons,filterEntries,if_neg (text_ne_nil e),filterEntry_text,ih,List.filter_cons]
    by_cases h : e.Inside
    · rw [if_pos h,if_pos (by simpa using h)]
      rfl
    · rw [if_neg h,if_neg (by simpa using h)]
      rfl

/-- The filtered log consists of the entries of the test case, in their order. -/
lemma filteredLog_recorded (h : Recorded log entries) (timing : Bool) :
    filteredLog timing log = .ok (List.intercalate [';']
      ((entries.filter (·.Inside)).map (LogEntry.kept timing))) := by
  rw [filteredLog,← filterEntries_filter,h,filterEntries_text]
  rfl

lemma intercalate_kept_injective {es es' : List LogEntry}
    (h : List.intercalate [';'] (es.map (LogEntry.kept timing)) =
      List.intercalate [';'] (es'.map (LogEntry.kept timing))) :
    es.map (LogEntry.kept timing) = es'.map (LogEntry.kept timing) := by
  have whole : ∀ es : List LogEntry, ∀ l ∈ es.map (LogEntry.kept timing), ';' ∉ l := by
    intro es l hl
    obtain ⟨e,-,rfl⟩ := List.mem_map.mp hl
    exact kept_whole timing e
  have empty : ∀ e : LogEntry, ∀ es : List LogEntry,
      List.intercalate [';'] ((e :: es).map (LogEntry.kept timing)) ≠ [] := by
    intro e es hnil
    have split := List.splitOn_intercalate _ (whole (e :: es)) (List.cons_ne_nil _ _)
    rw [hnil,List.splitOn_nil,List.map_cons,List.cons.injEq] at split
    exact kept_ne_nil timing e split.1.symm
  match es, es' with
  | [], [] => rfl
  | [], e :: es => exact absurd h.symm (empty e es)
  | e :: es, [] => exact absurd h (empty e es)
  | e :: es, e' :: es' =>
    have split := List.splitOn_intercalate _ (whole (e :: es)) (List.cons_ne_nil _ _)
    rw [h,List.splitOn_intercalate _ (whole (e' :: es')) (List.cons_ne_nil _ _)] at split
    exact split.symm

/-- Two logs look the same exactly if the entries of the test case do, in their order. Only sources
with timing show when they were made, and none shows what was done outside of the test case. -/
theorem filteredLog_eq_iff (h : Recorded log entries) (h' : Recorded log' entries') (timing : Bool) :
    filteredLog timing log = filteredLog timing log' ↔
      (entries.filter (·.Inside)).map (LogEntry.view timing) =
        (entries'.filter (·.Inside)).map (LogEntry.view timing) := by
  have kept : ∀ es es' : List LogEntry, es.map (LogEntry.kept timing) =
      es'.map (LogEntry.kept timing) ↔ es.map (LogEntry.view timing) =
        es'.map (LogEntry.view timing) := by
    intro es
    induction es with
    | nil => intro es'; cases es' <;> simp
    | cons e es ih =>
      intro es'
      cases es' with
      | nil => simp
      | cons e' es' =>
        rw [List.map_cons,List.map_cons,List.map_cons,List.map_cons,List.cons.injEq,
          List.cons.injEq,kept_eq_iff,ih]
  rw [filteredLog_recorded h,filteredLog_recorded h',← kept]
  constructor
  · intro heq
    exact intercalate_kept_injective (Except.ok.inj heq)
  · intro heq
    rw [heq]

end Logs

/-- A load of the test case, made early or late. -/
def early : LogEntry :=
  ⟨['7'],"pc:0x402010,r".toList,by decide,by decide,by decide⟩

def late : LogEntry :=
  ⟨['8','0'],"pc:0x402010,r".toList,by decide,by decide,by decide⟩

/-- Only with timing do the loads look different. -/
theorem filteredLog_eq_iff_late : filteredLog false (early.text ++ [';']) = filteredLog false late.text ∧
    filteredLog true (early.text ++ [';']) ≠ filteredLog true late.text := by
  have records : Recorded (early.text ++ [';']) [early] := by decide +kernel
  have records' : Recorded late.text [late] := by decide +kernel
  constructor
  · exact (filteredLog_eq_iff records records' false).mpr (by decide +kernel)
  · intro same
    exact absurd ((filteredLog_eq_iff records records' true).mp same) (by decide +kernel)

end ProteanAmulet.Gem5IPCOrchestration
