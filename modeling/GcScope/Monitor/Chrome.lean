import GcScope.Lib.JsonWriter
import GcScope.Monitor.TraceEvent

/-!
# One event as Chrome spells it

Each kind of event is a JSON object put together by hand, with bare figures and unescaped names.

* `encode`, `argsJson`: the text of an event and of its arguments.
* `TraceEvent.json`: the object the text is meant to be.
* `TraceEvent.members`, `encode_eq`: the text is that object written member by member.
* **`spells_encode`**: it is the object exactly where the names are plain and the figures finite.
* **`stops_encode`**: an event with plain names and a figure that is not finite is no JSON.
-/

set_option autoImplicit false

namespace GcScope

open Json

variable {F : Type} [F64 F]

section Encode

variable [DisplayF64 F]

/-- The bare form of a value. -/
def ArgValue.display : ArgValue F → String
  | .int v => toString v
  | .float v => DisplayF64.display v

/-- The inside of an `args` object. -/
def argsJson (args : List (Arg F)) : String :=
  ",".intercalate (args.map fun a => "\"" ++ a.1 ++ "\":" ++ a.2.display)

/-- One event as its Chrome Trace JSON object. -/
def encode : TraceEvent F → String
  | .processMeta pid name =>
    r#"{"ph":"M","pid":"# ++ toString pid ++ r#","name":"process_name","args":{"name":""# ++ name ++ r#""}}"#
  | .threadMeta pid tid name =>
    r#"{"ph":"M","pid":"# ++ toString pid ++ r#","tid":"# ++ toString tid ++
      r#","name":"thread_name","args":{"name":""# ++ name ++ r#""}}"#
  | .spanBegin pid tid tsNs name cat args =>
    r#"{"ph":"B","pid":"# ++ toString pid ++ r#","tid":"# ++ toString tid ++
      r#","ts":"# ++ toString (tsUs tsNs) ++ r#","name":""# ++ name ++ r#"","cat":""# ++ cat ++
      r#"","args":{"# ++ argsJson args ++ r#"}}"#
  | .spanEnd pid tid tsNs name cat =>
    r#"{"ph":"E","pid":"# ++ toString pid ++ r#","tid":"# ++ toString tid ++
      r#","ts":"# ++ toString (tsUs tsNs) ++ r#","name":""# ++ name ++ r#"","cat":""# ++ cat ++ r#""}"#
  | .instant pid tsNs name =>
    r#"{"name":""# ++ name ++ r#"","ph":"I","s":"p","ts":"# ++ toString (tsUs tsNs) ++
      r#","pid":"# ++ toString pid ++ r#"}"#
  | .counter pid tid tsNs name args =>
    r#"{"name":""# ++ name ++ r#"","ph":"C","ts":"# ++ toString (tsUs tsNs) ++
      r#","pid":"# ++ toString pid ++ r#","tid":"# ++ toString tid ++
      r#","args":{"# ++ argsJson args ++ r#"}}"#

/-! ## The object it is meant to be -/

/-- The number a value stands for, where it is finite. -/
def ArgValue.json : ArgValue F → Json
  | .int v => .number v
  | .float v => .number (DisplayF64.decimal v)

def argsObject (args : List (Arg F)) : Json := .object (args.map fun a => (a.1, a.2.json))

namespace TraceEvent

/-- The object of an event, with microseconds for nanoseconds. -/
def json : TraceEvent F → Json
  | processMeta pid name =>
    .object [("ph", .string "M"), ("pid", .number pid), ("name", .string "process_name"),
      ("args", .object [("name", .string name)])]
  | threadMeta pid tid name =>
    .object [("ph", .string "M"), ("pid", .number pid), ("tid", .number tid),
      ("name", .string "thread_name"), ("args", .object [("name", .string name)])]
  | spanBegin pid tid tsNs name cat args =>
    .object [("ph", .string "B"), ("pid", .number pid), ("tid", .number tid),
      ("ts", .number (tsUs tsNs)), ("name", .string name), ("cat", .string cat),
      ("args", argsObject args)]
  | spanEnd pid tid tsNs name cat =>
    .object [("ph", .string "E"), ("pid", .number pid), ("tid", .number tid),
      ("ts", .number (tsUs tsNs)), ("name", .string name), ("cat", .string cat)]
  | instant pid tsNs name =>
    .object [("name", .string name), ("ph", .string "I"), ("s", .string "p"),
      ("ts", .number (tsUs tsNs)), ("pid", .number pid)]
  | counter pid tid tsNs name args =>
    .object [("name", .string name), ("ph", .string "C"), ("ts", .number (tsUs tsNs)),
      ("pid", .number pid), ("tid", .number tid), ("args", argsObject args)]

end TraceEvent

/-! ## Written member by member -/

end Encode

section Members

variable [StdDisplayF64 F]

theorem bad_display {x : F} (h : ¬F64.isFinite x = true) : Bad (DisplayF64.display x) := by
  rcases StdDisplayF64.display_eq_of_not_isFinite x (Bool.eq_false_iff.mpr h) with h | h | h
  · have hrun : Lexer.run .start ("NaN" : String).toList = some ([], .word ['N', 'a', 'N']) := rfl
    rw [h]
    exact bad_word hrun rfl
  · have hrun : Lexer.run .start ("inf" : String).toList = some ([], .word ['i', 'n', 'f']) := rfl
    rw [h]
    exact bad_word hrun rfl
  · rw [h]; exact Stops.bad rfl

theorem writes_display (x : F) : Writes (F64.isFinite x = true) (DisplayF64.display x)
    (.number (DisplayF64.decimal x)) := by
  by_cases hx : F64.isFinite x = true
  · exact (writes_number (DisplayF64.number?_display x hx)).congr (iff_true_intro hx).symm
  · exact ((bad_display hx).writes _).congr (iff_false_intro hx).symm

/-- An argument as a member. -/
def argMember (a : Arg F) : Member :=
  match a.2 with
  | .int v => intMember a.1 v
  | .float v => ⟨a.1, DisplayF64.display v, .number (DisplayF64.decimal v), F64.isFinite v = true,
      writes_display v⟩

/-- The members of an event, in the order they are written. -/
def TraceEvent.members : TraceEvent F → List Member
  | processMeta pid name =>
    [strMember "ph" "M", natMember "pid" pid, strMember "name" "process_name",
      objectMember "args" [strMember "name" name]]
  | threadMeta pid tid name =>
    [strMember "ph" "M", natMember "pid" pid, intMember "tid" tid, strMember "name" "thread_name",
      objectMember "args" [strMember "name" name]]
  | spanBegin pid tid tsNs name cat args =>
    [strMember "ph" "B", natMember "pid" pid, intMember "tid" tid, intMember "ts" (tsUs tsNs),
      strMember "name" name, strMember "cat" cat, objectMember "args" (args.map argMember)]
  | spanEnd pid tid tsNs name cat =>
    [strMember "ph" "E", natMember "pid" pid, intMember "tid" tid, intMember "ts" (tsUs tsNs),
      strMember "name" name, strMember "cat" cat]
  | instant pid tsNs name =>
    [strMember "name" name, strMember "ph" "I", strMember "s" "p", intMember "ts" (tsUs tsNs),
      natMember "pid" pid]
  | counter pid tid tsNs name args =>
    [strMember "name" name, strMember "ph" "C", intMember "ts" (tsUs tsNs), natMember "pid" pid,
      intMember "tid" tid, objectMember "args" (args.map argMember)]

theorem argsJson_eq (args : List (Arg F)) : argsJson args = membersText "" (args.map argMember) := by
  rw [argsJson, membersText, List.map_map]
  refine congrArg _ (List.map_congr_left fun a _ => ?_)
  obtain ⟨key, v | v⟩ := a <;> simp [argMember, intMember, Member.render, ArgValue.display]

/-- **The text of an event is its members, one after the other.** -/
theorem encode_eq (e : TraceEvent F) : encode e = r#"{"# ++ membersText "" e.members ++ r#"}"# := by
  refine String.toList_inj.mp ?_
  -- `encode` has long texts in its branches, and its equations are slow to derive
  delta encode
  cases e <;>
    simp [TraceEvent.members, membersText, String.intercalate_cons_cons, Member.render, strMember,
      natMember, intMember, objectMember, argsJson_eq]

theorem argsObject_eq (args : List (Arg F)) :
    argsObject args = .object ((args.map argMember).map Member.pair) := by
  rw [argsObject, List.map_map]
  refine congrArg _ (List.map_congr_left fun a _ => ?_)
  obtain ⟨key, v | v⟩ := a <;> rfl

theorem json_eq (e : TraceEvent F) : e.json = .object (e.members.map Member.pair) := by
  cases e <;> simp [TraceEvent.json, TraceEvent.members, Member.pair, strMember, natMember,
    intMember, objectMember, argsObject_eq]

/-! ## When the text is the object -/

theorem sound_argMember (a : Arg F) : (argMember a).Sound ↔
    Json.Plain a.1 ∧ ∀ v, a.2 = .float v → F64.isFinite v = true := by
  obtain ⟨key, v | v⟩ := a
  · simp [argMember]
  · simp [argMember, Member.Sound]

theorem sound_args (args : List (Arg F)) : (∀ m ∈ args.map argMember, m.Sound) ↔
    (∀ a ∈ args, Json.Plain a.1) ∧ ∀ a ∈ args, ∀ v, a.2 = .float v → F64.isFinite v = true := by
  simp only [List.forall_mem_map, sound_argMember]
  exact forall₂_and

theorem sound_members (e : TraceEvent F) : (∀ m ∈ e.members, m.Sound) ↔ e.Plain ∧ e.Finite := by
  have hkeys : ∀ s ∈ ["ph", "pid", "tid", "ts", "name", "cat", "args", "s", "M", "B", "E", "I", "C",
      "p", "process_name", "thread_name"], Json.Plain s := by decide
  simp only [List.forall_mem_cons] at hkeys
  cases e <;>
    simp [TraceEvent.members, TraceEvent.Finite, TraceEvent.args, hkeys, sound_args, and_assoc, -List.mem_map]

theorem decided_of_proviso {m : Member} (hk : Json.Plain m.key) (h : m.proviso) : m.Decided :=
  ⟨hk, fun hn => absurd h hn⟩

theorem decided_argMember {a : Arg F} (h : Json.Plain a.1) : (argMember a).Decided := by
  obtain ⟨key, v | v⟩ := a
  · exact decided_of_proviso h trivial
  · exact ⟨h, bad_display⟩

theorem decided_objectMember {key : String} (hk : Json.Plain key) {ms : List Member}
    (h : ∀ m ∈ ms, m.Decided) : (objectMember key ms).Decided :=
  ⟨hk, fun hn => (stops_object spells_empty h fun hp => hn fun m hm => ⟨(h m hm).1, hp m hm⟩).bad⟩

theorem decided_members {e : TraceEvent F} (he : e.Plain) : ∀ m ∈ e.members, m.Decided := by
  have hkeys : ∀ s ∈ ["ph", "pid", "tid", "ts", "name", "cat", "args", "s", "M", "B", "E", "I", "C",
      "p", "process_name", "thread_name"], Json.Plain s := by decide
  simp only [List.forall_mem_cons] at hkeys
  have hstr : ∀ {key s : String}, Json.Plain key → Json.Plain s → (strMember key s).Decided :=
    fun hk hs => decided_of_proviso hk hs
  have hnat : ∀ {key : String} {n : ℕ}, Json.Plain key → (natMember key n).Decided :=
    fun hk => decided_of_proviso hk trivial
  have hint : ∀ {key : String} {z : ℤ}, Json.Plain key → (intMember key z).Decided :=
    fun hk => decided_of_proviso hk trivial
  have hargs : ∀ {args : List (Arg F)}, (∀ a ∈ args, Json.Plain a.1) →
      (objectMember "args" (args.map argMember)).Decided := fun h =>
    decided_objectMember (by decide) (List.forall_mem_map.mpr fun a ha => decided_argMember (h a ha))
  have hname : ∀ {name : String}, Json.Plain name →
      (objectMember "args" [strMember "name" name]).Decided := fun h =>
    decided_objectMember (by decide) (by simpa using hstr (by decide) h)
  cases e with
  | processMeta pid name =>
    have he := TraceEvent.plain_processMeta.mp he
    simp [TraceEvent.members, hstr, hnat, hname he, hkeys]
  | threadMeta pid tid name =>
    have he := TraceEvent.plain_threadMeta.mp he
    simp [TraceEvent.members, hstr, hnat, hint, hname he, hkeys]
  | spanBegin pid tid tsNs name cat args =>
    obtain ⟨hn, hc, ha⟩ := TraceEvent.plain_spanBegin.mp he
    simp [TraceEvent.members, hstr, hnat, hint, hargs ha, hn, hc, hkeys]
  | spanEnd pid tid tsNs name cat =>
    obtain ⟨hn, hc⟩ := TraceEvent.plain_spanEnd.mp he
    simp [TraceEvent.members, hstr, hnat, hint, hn, hc, hkeys]
  | instant pid tsNs name =>
    have he := TraceEvent.plain_instant.mp he
    simp [TraceEvent.members, hstr, hnat, hint, he, hkeys]
  | counter pid tid tsNs name args =>
    obtain ⟨hn, ha⟩ := TraceEvent.plain_counter.mp he
    simp [TraceEvent.members, hstr, hnat, hint, hargs ha, hn, hkeys]

/-- **The text of an event is its object exactly where its names are plain and its figures
finite.** -/
theorem spells_encode (e : TraceEvent F) :
    Spells (e.Plain ∧ e.Finite) (encode e).toList (tokens e.json) := by
  rw [encode_eq, json_eq]
  exact (spells_object spells_empty e.members).congr (sound_members e)

/-- **An event with plain names and a figure that is not finite is no JSON.** -/
theorem stops_encode {e : TraceEvent F} (he : e.Plain) (hf : ¬e.Finite) :
    Stops (encode e).toList := by
  rw [encode_eq]
  refine stops_object spells_empty (decided_members he) fun h => hf ?_
  exact ((sound_members e).mp fun m hm => ⟨(decided_members he m hm).1, h m hm⟩).2

end Members

end GcScope
