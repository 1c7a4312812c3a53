import GcScope.Monitor.TraceValid

/-!
# The order of the events in a trace

A viewer takes the events as they come: a process and a track have to be named before anything else
names them, spans have to close inside out, and a counter comes after the span it describes.

* `bracket`: the spans open on a track, each with the name, the category and the microsecond that its
  end has to fit.
* `neutral_spanEvents`: the events of a complete pause close what they open.
* `leads_process`, `leads_track`: within a conversion, the metadata comes first.
* `announced_streamOf`: a stream announces a name once, first, and not for nothing.
* `Ordered`, **`written_ordered`**: the stream of a run of conversions of complete Records.
-/

set_option autoImplicit false

namespace GcScope

open Firsts ChromeTraceExporter

namespace TraceEvent

variable {F : Type}

def pid : TraceEvent F → ℕ
  | processMeta pid _ | threadMeta pid _ _ | spanBegin pid _ _ _ _ _ | spanEnd pid _ _ _ _
  | instant pid _ _ | counter pid _ _ _ _ => pid

def track : TraceEvent F → Option (ℕ × ℤ)
  | threadMeta pid tid _ | spanBegin pid tid _ _ _ _ | spanEnd pid tid _ _ _
  | counter pid tid _ _ _ => some (pid, tid)
  | _ => none

def isCounter : TraceEvent F → Bool
  | counter .. => true
  | _ => false

end TraceEvent

/-! ## Brackets -/

/-- A span still open, as it was written. -/
structure OpenSpan where
  name : String
  cat : String
  tsUs : ℤ
  deriving DecidableEq

section Brackets

variable {F : Type}

/-- One event, on the spans open on a track. An end has to repeat the name and the category of the
innermost span, and not to be written before it. -/
def bracket (track : ℕ × ℤ) (spans : List OpenSpan) (event : TraceEvent F) :
    Option (List OpenSpan) :=
  match event with
  | .spanBegin pid tid tsNs name cat _ =>
    some (if (pid, tid) = track then ⟨name, cat, tsUs tsNs⟩ :: spans else spans)
  | .spanEnd pid tid tsNs name cat =>
    if (pid, tid) = track then
      match spans with
      | [] => none
      | s :: spans => if s.name = name ∧ s.cat = cat ∧ s.tsUs ≤ tsUs tsNs then some spans else none
    else some spans
  | _ => some spans

/-- The spans open on a track after these events, if each end fits. -/
def brackets (track : ℕ × ℤ) (events : List (TraceEvent F)) : Option (List OpenSpan) :=
  events.foldlM (bracket track) []

/-- Events that open and close nothing but their own spans. -/
def Neutral (events : List (TraceEvent F)) : Prop :=
  ∀ track spans, events.foldlM (bracket track) spans = some spans

theorem neutral_nil : Neutral ([] : List (TraceEvent F)) := fun _ _ => rfl

theorem Neutral.append {es es' : List (TraceEvent F)} (h : Neutral es) (h' : Neutral es') :
    Neutral (es ++ es') := fun track spans => by
  rw [List.foldlM_append, h track spans]
  exact h' track spans

theorem neutral_flatMap {α : Type} {f : α → List (TraceEvent F)} {l : List α}
    (h : ∀ a ∈ l, Neutral (f a)) : Neutral (l.flatMap f) := by
  induction l with
  | nil => exact neutral_nil
  | cons a l ih =>
    rw [List.flatMap_cons]
    exact (h a List.mem_cons_self).append (ih fun b hb => h b (List.mem_cons_of_mem a hb))

theorem neutral_of_forall {es : List (TraceEvent F)}
    (h : ∀ e ∈ es, ∀ track spans, bracket track spans e = some spans) : Neutral es :=
  fun track spans => by
    induction es with
    | nil => rfl
    | cons e es ih =>
      rw [List.foldlM_cons, h e List.mem_cons_self track spans]
      exact ih fun e' he' => h e' (List.mem_cons_of_mem e he')

theorem neutral_span {pid : ℕ} {tid start stop : ℤ} {name cat : String} {args : List (Arg F)}
    {inside : List (TraceEvent F)} (h : Neutral inside) (hle : start ≤ stop) :
    Neutral (.spanBegin pid tid start name cat args ::
      (inside ++ [.spanEnd pid tid stop name cat])) := fun track spans => by
  rw [List.foldlM_cons, bracket, Option.bind_eq_bind, Option.bind_some, List.foldlM_append, h track]
  by_cases ht : (pid, tid) = track
  · simp [bracket, ht, tsUs_mono hle]
  · simp [bracket, ht]

/-! ## The events of a Record -/

/-- **A sub-phase that is drawn has a width.** -/
theorem neutral_phaseEvents (pid : ℕ) (record : GcStat) (phase : Phase) :
    Neutral (phaseEvents pid record phase : List (TraceEvent F)) := by
  unfold phaseEvents
  split
  · split_ifs with hle
    · exact neutral_nil
    · exact neutral_span neutral_nil (not_le.mp hle).le
  · exact neutral_nil

/-- **A complete pause closes what it opens.** -/
theorem neutral_spanEvents (pid : ℕ) {record : GcStat} (h : record.tsStart < record.tsStop) :
    Neutral (spanEvents pid record : List (TraceEvent F)) :=
  neutral_span (neutral_flatMap fun phase _ => neutral_phaseEvents pid record phase) h.le

end Brackets

section Stream

variable {F : Type} [F64 F]

omit [F64 F] in
theorem of_mem_phaseEvents {pid : ℕ} {record : GcStat} {phase : Phase} {e : TraceEvent F}
    (h : e ∈ (phaseEvents pid record phase : List (TraceEvent F))) :
    e.pid = pid ∧ e.track = some (pid, record.interpreterId) ∧ e.metaKey = none ∧
      e.isCounter = false := by
  unfold phaseEvents at h
  split at h
  · split_ifs at h
    · cases h
    · simp only [List.mem_cons, List.not_mem_nil, or_false] at h
      rcases h with rfl | rfl <;> exact ⟨rfl, rfl, rfl, rfl⟩
  · cases h

theorem of_mem_bodyEvents {pid : ℕ} {record : GcStat} {observedAtNs : ℤ} {e : TraceEvent F}
    (h : e ∈ (bodyEvents pid record observedAtNs : List (TraceEvent F))) :
    e.pid = pid ∧ e.track = some (pid, record.interpreterId) ∧ e.metaKey = none := by
  unfold bodyEvents at h
  split_ifs at h
  · simp only [pauseEvents, spanEvents, List.mem_append, List.mem_cons, List.mem_flatMap,
      List.not_mem_nil, or_false] at h
    rcases h with (rfl | ⟨phase, -, h⟩ | rfl) | rfl | rfl
    · exact ⟨rfl, rfl, rfl⟩
    · obtain ⟨hp, ht, hk, -⟩ := of_mem_phaseEvents h
      exact ⟨hp, ht, hk⟩
    all_goals exact ⟨rfl, rfl, rfl⟩
  · unfold countEvents at h
    split_ifs at h
    · cases h
    · rw [List.mem_singleton.mp h]
      exact ⟨rfl, rfl, rfl⟩

/-- **The counters of a complete Record come after its span, which has closed.** -/
theorem exists_bodyEvents_eq (pid : ℕ) {record : GcStat} (h : record.isComplete = true)
    (observedAtNs : ℤ) : ∃ spans counters : List (TraceEvent F),
      bodyEvents pid record observedAtNs = spans ++ counters ∧ Neutral spans ∧
      (∀ e ∈ spans, e.isCounter = false) ∧ ∀ e ∈ counters, e.isCounter = true := by
  by_cases ht : record.hasTiming = true
  · rw [GcStat.isComplete_of_hasTiming record ht, decide_eq_true_eq] at h
    refine ⟨spanEvents pid record, _, by rw [bodyEvents, if_pos ht, pauseEvents],
      neutral_spanEvents pid h, fun e he => ?_, by simp [TraceEvent.isCounter]⟩
    simp only [spanEvents, List.mem_append, List.mem_cons, List.mem_flatMap, List.not_mem_nil,
      or_false] at he
    rcases he with rfl | ⟨phase, -, he⟩ | rfl
    · rfl
    · exact (of_mem_phaseEvents he).2.2.2
    · rfl
  · refine ⟨[], countEvents pid record observedAtNs, by rw [bodyEvents, if_neg ht]; rfl,
      neutral_nil, fun e he => absurd he List.not_mem_nil, fun e he => ?_⟩
    unfold countEvents at he
    split_ifs at he
    · cases he
    · rw [List.mem_singleton.mp he]; rfl

namespace Conversion

/-- The metadata that leads a conversion. -/
def metas (c : Conversion) : List (TraceEvent F) :=
  [.processMeta c.pid ("python " ++ toString c.pid),
    .threadMeta c.pid c.record.interpreterId
      (toString c.pid ++ ":" ++ toString c.record.interpreterId)]

def body (c : Conversion) : List (TraceEvent F) := bodyEvents c.pid c.record c.observedAtNs

theorem events_eq (c : Conversion) : (c.body : List (TraceEvent F)) = [] ∧ c.events (F := F) = [] ∨
    (c.body : List (TraceEvent F)) ≠ [] ∧ c.events (F := F) = c.metas ++ c.body := by
  rw [events, convertRecord]
  by_cases h : (c.body : List (TraceEvent F)) = []
  · exact Or.inl ⟨h, if_pos (List.isEmpty_iff.mpr h)⟩
  · exact Or.inr ⟨h, if_neg (mt List.isEmpty_iff.mp h)⟩

theorem pid_of_mem {c : Conversion} {e : TraceEvent F} (h : e ∈ c.events) : e.pid = c.pid := by
  rcases c.events_eq (F := F) with ⟨-, he⟩ | ⟨-, he⟩
  · rw [he] at h; cases h
  · rw [he, metas] at h
    simp only [List.mem_append, List.mem_cons, List.not_mem_nil, or_false] at h
    rcases h with (rfl | rfl) | h
    · rfl
    · rfl
    · exact (of_mem_bodyEvents h).1

theorem track_of_mem {c : Conversion} {e : TraceEvent F} (h : e ∈ c.events) {track : ℕ × ℤ}
    (ht : e.track = some track) : track = (c.pid, c.record.interpreterId) := by
  rcases c.events_eq (F := F) with ⟨-, he⟩ | ⟨-, he⟩
  · rw [he] at h; cases h
  · rw [he, metas] at h
    simp only [List.mem_append, List.mem_cons, List.not_mem_nil, or_false] at h
    rcases h with (rfl | rfl) | h
    · cases ht
    · exact (Option.some.inj ht).symm
    · rw [(of_mem_bodyEvents h).2.1] at ht
      exact (Option.some.inj ht).symm

theorem eq_processMeta {c : Conversion} {e : TraceEvent F} (h : e ∈ c.events) {pid : ℕ}
    (hk : e.metaKey = some (pid, none)) : e = .processMeta pid ("python " ++ toString pid) := by
  rcases mem_convertRecord c.pid c.record c.observedAtNs h with rfl | rfl | h
  · cases hk; rfl
  · cases hk
  · rw [(of_mem_bodyEvents h).2.2] at hk
    cases hk

theorem eq_threadMeta {c : Conversion} {e : TraceEvent F} (h : e ∈ c.events) {pid : ℕ} {tid : ℤ}
    (hk : e.metaKey = some (pid, some tid)) :
    e = .threadMeta pid tid (toString pid ++ ":" ++ toString tid) := by
  rcases mem_convertRecord c.pid c.record c.observedAtNs h with rfl | rfl | h
  · cases hk
  · cases hk; rfl
  · rw [(of_mem_bodyEvents h).2.2] at hk
    cases hk

/-- **Nothing names a process before its metadata.** -/
theorem leads_process {cs : List Conversion} {l₁ l₂ : List (TraceEvent F)} {e : TraceEvent F}
    (h : cs.flatMap events = l₁ ++ e :: l₂) :
    e.metaKey = some (e.pid, none) ∨ ∃ b ∈ l₁, b.metaKey = some (e.pid, none) := by
  obtain ⟨cs₁, c, cs₂, before, after, -, hc, rfl, -⟩ := ListFacts.exists_of_flatMap_eq h
  have hmem : e ∈ c.events := hc ▸ List.mem_append_right _ List.mem_cons_self
  rcases c.events_eq (F := F) with ⟨-, he⟩ | ⟨-, he⟩
  · rw [he] at hmem; cases hmem
  · rw [pid_of_mem hmem]
    rw [he, metas] at hc
    cases before with
    | nil =>
      obtain ⟨rfl, -⟩ := List.cons.inj hc
      exact Or.inl rfl
    | cons b before =>
      obtain ⟨rfl, -⟩ := List.cons.inj hc
      exact Or.inr ⟨_, List.mem_append_right _ List.mem_cons_self, rfl⟩

/-- **Nothing names a track before its metadata.** -/
theorem leads_track {cs : List Conversion} {l₁ l₂ : List (TraceEvent F)} {e : TraceEvent F}
    (h : cs.flatMap events = l₁ ++ e :: l₂) {pid : ℕ} {tid : ℤ} (ht : e.track = some (pid, tid)) :
    e.metaKey = some (pid, some tid) ∨ ∃ b ∈ l₁, b.metaKey = some (pid, some tid) := by
  obtain ⟨cs₁, c, cs₂, before, after, -, hc, rfl, -⟩ := ListFacts.exists_of_flatMap_eq h
  have hmem : e ∈ c.events := hc ▸ List.mem_append_right _ List.mem_cons_self
  obtain ⟨rfl, rfl⟩ := Prod.mk.inj (track_of_mem hmem ht)
  rcases c.events_eq (F := F) with ⟨-, he⟩ | ⟨-, he⟩
  · rw [he] at hmem; cases hmem
  · rw [he, metas] at hc
    rcases before with _ | ⟨b, _ | ⟨b', before⟩⟩
    · obtain ⟨rfl, -⟩ := List.cons.inj hc
      cases ht
    · obtain ⟨-, hc⟩ := List.cons.inj hc
      obtain ⟨rfl, -⟩ := List.cons.inj hc
      exact Or.inl rfl
    · obtain ⟨-, hc⟩ := List.cons.inj hc
      obtain ⟨rfl, -⟩ := List.cons.inj hc
      exact Or.inr ⟨_, List.mem_append_right _ (List.mem_cons_of_mem _ List.mem_cons_self), rfl⟩

/-- A conversion that names a process or a track has an event besides the metadata. -/
theorem exists_mem_body {cs : List Conversion} {e : TraceEvent F} (h : e ∈ cs.flatMap events) :
    ∃ b ∈ kept (cs.flatMap (events (F := F))), b.metaKey = none ∧ b.pid = e.pid ∧
      ∀ track, e.track = some track → b.track = some track := by
  obtain ⟨c, hc, he⟩ := List.mem_flatMap.mp h
  rcases c.events_eq (F := F) with ⟨-, hn⟩ | ⟨hb, hs⟩
  · rw [hn] at he; cases he
  · obtain ⟨b, hb⟩ := List.exists_mem_of_ne_nil _ hb
    obtain ⟨hp, ht, hk⟩ := of_mem_bodyEvents hb
    refine ⟨b, mem_firsts_of_none (List.mem_flatMap.mpr ⟨c, hc, ?_⟩) hk, hk, ?_, fun track htr => ?_⟩
    · rw [hs]; exact List.mem_append_right _ hb
    · rw [hp, pid_of_mem he]
    · rw [ht, track_of_mem he htr]

end Conversion

/-! ## The stream -/

variable (F) in
/-- The stream of conversions. -/
def streamOf (cs : List Conversion) : List (TraceEvent F) := kept (cs.flatMap Conversion.events)

variable (F) in
/-- What one more conversion adds to it. -/
def added (cs : List Conversion) (c : Conversion) : List (TraceEvent F) :=
  after TraceEvent.metaKey (cs.flatMap Conversion.events) c.events

/-- What a viewer relies on, in a stream of the events of these conversions. -/
structure Ordered (cs : List Conversion) (stream : List (TraceEvent F)) : Prop where
  /-- A process that is named has events, and its one name comes first of all that names it. -/
  process : ∀ pid, (∃ e ∈ stream, e.pid = pid) → ∃ rest,
    (stream.filter fun e => e.pid = pid) = .processMeta pid ("python " ++ toString pid) :: rest ∧
      (∀ e ∈ rest, e.metaKey ≠ some (pid, none)) ∧ ∃ e ∈ rest, e.metaKey = none
  /-- So does a track. -/
  thread : ∀ pid tid, (∃ e ∈ stream, e.track = some (pid, tid)) → ∃ rest,
    (stream.filter fun e => e.track = some (pid, tid)) =
        .threadMeta pid tid (toString pid ++ ":" ++ toString tid) :: rest ∧
      (∀ e ∈ rest, e.metaKey ≠ some (pid, some tid)) ∧ ∃ e ∈ rest, e.metaKey = none
  /-- On every track, begins and ends match as brackets. -/
  matched : ∀ track, brackets track stream = some []
  /-- What a Record adds is its metadata, its span and its counters, and no span is open before, when
  the counters start, and after. -/
  record : ∀ pre c post, cs = pre ++ c :: post → ∃ metas spans counters rest,
    stream = streamOf F pre ++ (metas ++ spans ++ counters) ++ rest ∧
      added F pre c = metas ++ spans ++ counters ∧
      (∀ e ∈ metas ++ spans, e.isCounter = false) ∧ (∀ e ∈ counters, e.isCounter = true) ∧
      ∀ track, brackets track (streamOf F pre) = some [] ∧
        brackets track (streamOf F pre ++ (metas ++ spans)) = some [] ∧
        brackets track (streamOf F pre ++ (metas ++ spans ++ counters)) = some []

/-- What a conversion of a complete Record adds to a stream. -/
theorem exists_added_eq (cs : List Conversion) {c : Conversion}
    (h : c.record.isComplete = true) : ∃ metas spans counters : List (TraceEvent F),
      added F cs c = metas ++ spans ++ counters ∧ Neutral (metas ++ spans) ∧ Neutral counters ∧
      (∀ e ∈ metas ++ spans, e.isCounter = false) ∧ ∀ e ∈ counters, e.isCounter = true := by
  rw [added]
  generalize cs.flatMap (Conversion.events (F := F)) = l
  rcases c.events_eq (F := F) with ⟨-, he⟩ | ⟨-, he⟩
  · exact ⟨[], [], [], by rw [he]; rfl, neutral_nil, neutral_nil, by simp, by simp⟩
  · obtain ⟨spans, counters, hb, hn, hs, hc⟩ :=
      exists_bodyEvents_eq (F := F) c.pid h c.observedAtNs
    have hmetas : ∀ e ∈ after TraceEvent.metaKey l (c.metas : List (TraceEvent F)),
        e.isCounter = false ∧ ∀ track spans, bracket track spans e = some spans := fun e he => by
      have := mem_of_mem_after he
      simp only [Conversion.metas, List.mem_cons, List.not_mem_nil, or_false] at this
      rcases this with rfl | rfl <;> exact ⟨rfl, fun _ _ => rfl⟩
    have hbody : after TraceEvent.metaKey (l ++ c.metas) (c.body : List (TraceEvent F)) =
        spans ++ counters :=
      (after_of_none fun e he => (of_mem_bodyEvents he).2.2).trans hb
    refine ⟨after TraceEvent.metaKey l c.metas, spans, counters, ?_,
      (neutral_of_forall fun e he => (hmetas e he).2).append hn,
      neutral_of_forall fun e he track spans => ?_, fun e he => ?_, hc⟩
    · rw [he, after_append, hbody, List.append_assoc]
    · have := hc e he
      cases e <;> first | rfl | cases this
    · rcases List.mem_append.mp he with he | he
      · exact (hmetas e he).1
      · exact hs e he

theorem streamOf_concat (cs : List Conversion) (c : Conversion) :
    streamOf F (cs ++ [c]) = streamOf F cs ++ added F cs c := by
  rw [streamOf, List.flatMap_append, List.flatMap_singleton, kept, firsts_append]; rfl

/-- **Conversions of complete Records leave no span open.** -/
theorem neutral_streamOf {cs : List Conversion} (h : ∀ c ∈ cs, c.record.isComplete = true) :
    Neutral (streamOf F cs) := by
  induction cs using List.reverseRecOn with
  | nil => exact neutral_nil
  | append_singleton cs c ih =>
    obtain ⟨metas, spans, counters, he, hs, hc, -⟩ := exists_added_eq (F := F) cs
      (h c (List.mem_append_right _ (List.mem_singleton_self c)))
    rw [streamOf_concat, he]
    exact (ih fun c' hc' => h c' (List.mem_append_left _ hc')).append (hs.append hc)

/-- Where the events that name something never come before the metadata that announces it, a stream
announces it once, first, and not for nothing. -/
theorem announced_streamOf {cs : List Conversion} {k : ℕ × Option ℤ} {m : TraceEvent F}
    {names : TraceEvent F → Bool} (hnames : ∀ e, e.metaKey = some k → names e = true)
    (hlead : ∀ l₁ e l₂, cs.flatMap Conversion.events = l₁ ++ e :: l₂ → names e = true →
      e.metaKey = some k ∨ ∃ b ∈ l₁, b.metaKey = some k)
    (hmeta : ∀ c : Conversion, ∀ e ∈ c.events, e.metaKey = some k → e = m)
    (hbody : ∀ e ∈ cs.flatMap Conversion.events, names e = true →
      ∃ b ∈ streamOf F cs, b.metaKey = none ∧ names b = true)
    (h : ∃ e ∈ streamOf F cs, names e = true) : ∃ rest, (streamOf F cs).filter names = m :: rest ∧
      (∀ e ∈ rest, e.metaKey ≠ some k) ∧ ∃ e ∈ rest, e.metaKey = none := by
  obtain ⟨m', rest, hf, hm, hrest⟩ := filter_firsts_eq_cons hnames hlead h
  have hmem : m' ∈ cs.flatMap (Conversion.events (F := F)) :=
    mem_of_mem_firsts (List.mem_of_mem_filter (hf ▸ List.mem_cons_self))
  obtain ⟨c, -, hc⟩ := List.mem_flatMap.mp hmem
  obtain rfl : m' = m := hmeta c m' hc hm
  obtain ⟨b, hb, hbk, hbn⟩ := hbody m' hmem (hnames m' hm)
  refine ⟨rest, hf, hrest, b, ?_, hbk⟩
  have hfb : b ∈ (streamOf F cs).filter names := List.mem_filter.mpr ⟨hb, hbn⟩
  rw [streamOf, kept, hf] at hfb
  refine (List.mem_cons.mp hfb).resolve_left ?_
  rintro rfl
  rw [hbk] at hm
  cases hm

theorem process_streamOf (cs : List Conversion) {pid : ℕ} (h : ∃ e ∈ streamOf F cs, e.pid = pid) :
    ∃ rest, ((streamOf F cs).filter fun e => e.pid = pid) =
        .processMeta pid ("python " ++ toString pid) :: rest ∧
      (∀ e ∈ rest, e.metaKey ≠ some (pid, none)) ∧ ∃ e ∈ rest, e.metaKey = none := by
  refine announced_streamOf (fun e he => ?_) (fun l₁ e l₂ hl he => ?_)
    (fun c e he hk => Conversion.eq_processMeta he hk) (fun e he hp => ?_) (by simpa using h)
  · cases e <;> first | cases he; done | exact decide_eq_true (by cases he; rfl)
  · exact of_decide_eq_true he ▸ Conversion.leads_process hl
  · obtain ⟨b, hb, hbk, hbp, -⟩ := Conversion.exists_mem_body he
    exact ⟨b, hb, hbk, decide_eq_true (hbp.trans (of_decide_eq_true hp))⟩

theorem thread_streamOf (cs : List Conversion) {pid : ℕ} {tid : ℤ}
    (h : ∃ e ∈ streamOf F cs, e.track = some (pid, tid)) :
    ∃ rest, ((streamOf F cs).filter fun e => e.track = some (pid, tid)) =
        .threadMeta pid tid (toString pid ++ ":" ++ toString tid) :: rest ∧
      (∀ e ∈ rest, e.metaKey ≠ some (pid, some tid)) ∧ ∃ e ∈ rest, e.metaKey = none := by
  refine announced_streamOf (fun e he => ?_)
    (fun l₁ e l₂ hl he => Conversion.leads_track hl (of_decide_eq_true he))
    (fun c e he hk => Conversion.eq_threadMeta he hk) (fun e he hp => ?_) (by simpa using h)
  · cases e <;> first | cases he; done | exact decide_eq_true (by cases he; rfl)
  · obtain ⟨b, hb, hbk, -, hbt⟩ := Conversion.exists_mem_body he
    exact ⟨b, hb, hbk, decide_eq_true (hbt _ (of_decide_eq_true hp))⟩

theorem streamOf_ordered {cs : List Conversion} (h : ∀ c ∈ cs, c.record.isComplete = true) :
    Ordered cs (streamOf F cs) where
  process _ := process_streamOf cs
  thread _ _ := thread_streamOf cs
  matched track := neutral_streamOf h track []
  record pre c post hsplit := by
    have hpre := neutral_streamOf (F := F) fun c' hc' =>
      h c' (hsplit ▸ List.mem_append_left (c :: post) hc')
    obtain ⟨metas, spans, counters, he, hs, hc, hm, hct⟩ := exists_added_eq (F := F) pre
      (h c (hsplit ▸ List.mem_append_right pre List.mem_cons_self))
    refine ⟨metas, spans, counters,
      after TraceEvent.metaKey ((pre ++ [c]).flatMap Conversion.events)
        (post.flatMap Conversion.events), ?_, he, hm, hct, fun track => ⟨hpre track [],
        hpre.append hs track [], hpre.append (hs.append hc) track []⟩⟩
    rw [← he, ← streamOf_concat, hsplit, List.append_cons, streamOf, List.flatMap_append, kept,
      firsts_append]
    rfl

end Stream

section Written

variable {F : Type} [F64 F] [DisplayF64 F]

/-- **What the exporter writes for conversions of complete Records is in order, however they are split
into batches; so is the file, where every write goes through.** -/
theorem written_ordered (x : ChromeTraceExporter) {cs : List Conversion}
    (hc : ∀ c ∈ cs, c.record.isComplete = true) {batches : List (List (TraceEvent F))}
    (h : batches.flatten = cs.flatMap Conversion.events) :
    (∀ ok, Ordered cs ((x.tried ok batches).map Prod.fst)) ∧
      Ordered cs (succeeded (x.tried (fun _ => true) batches)) := by
  have hstream : kept batches.flatten = streamOf F cs := by rw [h, streamOf]
  constructor
  · intro ok
    rw [tried_eq, map_fst_outcomes, hstream]
    exact streamOf_ordered hc
  · rw [tried_eq, succeeded_outcomes_true, hstream]
    exact streamOf_ordered hc

/-- A pause on two processes, with the events of the first split in two. -/
theorem written_ordered_twoProcesses :
    let cs := [pauseOf [0, 0, 0, 0, 0, 0, 0, 0x40],
      { pauseOf [0, 0, 0, 0, 0, 0, 0, 0x40] with pid := 8 }]
    let batches := [(pauseOf [0, 0, 0, 0, 0, 0, 0, 0x40]).events.take 3, [],
      (pauseOf [0, 0, 0, 0, 0, 0, 0, 0x40]).events.drop 3 ++
        Conversion.events { pauseOf [0, 0, 0, 0, 0, 0, 0, 0x40] with pid := 8 }]
    (∀ ok, Ordered (F := WholeF64) cs ((ChromeTraceExporter.new.tried ok batches).map Prod.fst)) ∧
      Ordered (F := WholeF64) cs
        (succeeded (ChromeTraceExporter.new.tried (fun _ => true) batches)) :=
  written_ordered .new (by decide +kernel) (by simp [← List.append_assoc])

end Written

end GcScope
