import Mathlib.Data.Rat.Defs
import Mathlib.Data.List.Basic

/-!
# JSON documents as tokens

A document is a tree. Its tokens are written out in one order; a machine reads them back with a
stack of the arrays and objects still open.

* `Json`, `Json.Token`, `Json.tokens`: the tree, and the tokens it is written with.
* `Json.get?`, `Json.string?`, `Json.int?`, `Json.figures`: what a reader picks out of a tree.
* `Json.objectOf`, **`get?_objectOf`**: an object with members that may be absent.
* `Json.Reader`: what has been read, as the frames still open and what may come next.
* `Reader.spelt`: the tokens a state of the machine stands for, extended by every step.
* **`read_eq_some_iff`**: the machine reads a tree exactly from its tokens.
-/

set_option autoImplicit false

/-- A JSON document. The members of an object stay in order, and a key may come again. -/
inductive Json where
  | null
  | bool (b : Bool)
  | number (q : ℚ)
  | string (s : String)
  | array (items : List Json)
  | object (members : List (String × Json))

namespace Json

inductive Token where
  | openObject
  | closeObject
  | openArray
  | closeArray
  | comma
  | colon
  | null
  | bool (b : Bool)
  | number (q : ℚ)
  | string (s : String)
  deriving DecidableEq

/-- The value under a key, the first where the key comes again. -/
def get? : Json → String → Option Json
  | object members, key => (members.find? fun m => m.1 == key).map Prod.snd
  | _, _ => none

/-- The text of a string. -/
def string? : Json → Option String
  | string s => some s
  | _ => none

/-- A number that is whole. -/
def int? : Json → Option ℤ
  | number q => if q.den = 1 then some q.num else none
  | _ => none

@[simp] theorem string?_string (s : String) : (Json.string s).string? = some s := rfl

@[simp] theorem int?_intCast (z : ℤ) : (number z).int? = some z := rfl

@[simp] theorem int?_natCast (n : ℕ) : (number n).int? = some (n : ℤ) := rfl

/-- The members of an object that are numbers. -/
def figures : Json → List (String × ℚ)
  | object members => members.filterMap fun m =>
    match m.2 with
    | .number q => some (m.1, q)
    | _ => none
  | _ => []

/-- An object with a member for each value there is. -/
def objectOf (ms : List (String × Option Json)) : Json :=
  .object (ms.flatMap fun m => (m.2.map fun v => (m.1, v)).toList)

theorem get?_objectOf_of_not_mem {ms : List (String × Option Json)} {key : String}
    (h : key ∉ ms.map Prod.fst) : (objectOf ms).get? key = none := by
  have hnone : (ms.flatMap fun m => (m.2.map fun v => (m.1, v)).toList).find?
      (fun m => m.1 == key) = none := by
    refine List.find?_eq_none.mpr fun m hm => ?_
    obtain ⟨m', hm', he⟩ := List.mem_flatMap.mp hm
    obtain ⟨v, -, rfl⟩ := Option.map_eq_some_iff.mp (Option.mem_toList.mp he)
    simpa using fun hk => h (List.mem_map.mpr ⟨m', hm', hk⟩)
  rw [objectOf, get?, hnone]; rfl

/-- **Where no key comes again, the value under a key is the value there is for it.** -/
theorem get?_objectOf {ms : List (String × Option Json)} (h : (ms.map Prod.fst).Nodup)
    {key : String} {v : Option Json} (hm : (key, v) ∈ ms) : (objectOf ms).get? key = v := by
  induction ms with
  | nil => cases hm
  | cons m ms ih =>
    obtain ⟨hnot, hnodup⟩ := List.nodup_cons.mp h
    obtain ⟨key', v'⟩ := m
    have htail : (objectOf ((key', none) :: ms)).get? key = (objectOf ms).get? key := rfl
    rcases List.mem_cons.mp hm with he | hm
    · cases he
      cases v with
      | none => rw [htail, get?_objectOf_of_not_mem hnot]
      | some v => simp [objectOf, get?]
    · have hne : key' ≠ key := fun he => hnot (List.mem_map.mpr ⟨_, hm, he.symm⟩)
      rw [← ih hnodup hm]
      cases v' with
      | none => rfl
      | some v' => simp [objectOf, get?, hne]

/-! ## Writing -/

mutual

/-- The tokens of a document. -/
def tokens : Json → List Token
  | .null => [.null]
  | .bool b => [.bool b]
  | .number q => [.number q]
  | .string s => [.string s]
  | .array [] => [.openArray, .closeArray]
  | .array (v :: vs) => .openArray :: (tokens v ++ moreItems vs ++ [.closeArray])
  | .object [] => [.openObject, .closeObject]
  | .object ((k, v) :: ms) =>
    .openObject :: .string k :: .colon :: (tokens v ++ moreMembers ms ++ [.closeObject])

/-- The items of an array after its first. -/
def moreItems : List Json → List Token
  | [] => []
  | v :: vs => .comma :: (tokens v ++ moreItems vs)

/-- The members of an object after its first. -/
def moreMembers : List (String × Json) → List Token
  | [] => []
  | (k, v) :: ms => .comma :: .string k :: .colon :: (tokens v ++ moreMembers ms)

end

theorem tokens_ne_nil (v : Json) : tokens v ≠ [] := by
  cases v with
  | array items => cases items <;> simp [tokens]
  | object members => cases members <;> simp [tokens]
  | _ => simp [tokens]

/-! ## Reading -/

namespace Reader

/-- An array or an object still open, waiting for a value: what it has, and the key of the value. -/
inductive Frame where
  | item (items : List Json)
  | member (members : List (String × Json)) (key : String)

/-- What has been read, the innermost frame first. -/
inductive State where
  /-- A value comes next; where an array has just been opened, its end may come. -/
  | value (frames : List Frame)
  /-- A key comes next; where the object has just been opened, its end may come. -/
  | key (members : List (String × Json)) (frames : List Frame)
  | colon (members : List (String × Json)) (key : String) (frames : List Frame)
  /-- A value is complete. -/
  | after (v : Json) (frames : List Frame)

/-- One token. -/
def step : State → Token → Option State
  | .value fs, .null => some (.after .null fs)
  | .value fs, .bool b => some (.after (.bool b) fs)
  | .value fs, .number q => some (.after (.number q) fs)
  | .value fs, .string s => some (.after (.string s) fs)
  | .value fs, .openArray => some (.value (.item [] :: fs))
  | .value fs, .openObject => some (.key [] fs)
  | .value (.item [] :: fs), .closeArray => some (.after (.array []) fs)
  | .key [] fs, .closeObject => some (.after (.object []) fs)
  | .key ms fs, .string k => some (.colon ms k fs)
  | .colon ms k fs, .colon => some (.value (.member ms k :: fs))
  | .after v (.item vs :: fs), .comma => some (.value (.item (vs ++ [v]) :: fs))
  | .after v (.item vs :: fs), .closeArray => some (.after (.array (vs ++ [v])) fs)
  | .after v (.member ms k :: fs), .comma => some (.key (ms ++ [(k, v)]) fs)
  | .after v (.member ms k :: fs), .closeObject => some (.after (.object (ms ++ [(k, v)])) fs)
  | _, _ => none

/-- The document, once nothing is left open. -/
def done : State → Option Json
  | .after v [] => some v
  | _ => none

def run (s : State) (ts : List Token) : Option Json := (ts.foldlM step s).bind done

theorem run_cons {s s' : State} {t : Token} (h : step s t = some s') (ts : List Token) :
    run s (t :: ts) = run s' ts := by
  rw [run, List.foldlM_cons, h]; rfl

/-! ### What is written is read -/

mutual

theorem run_tokens (v : Json) (fs : List Frame) (ts : List Token) :
    run (.value fs) (tokens v ++ ts) = run (.after v fs) ts := by
  match v with
  | .null | .bool _ | .number _ | .string _ => rw [tokens]; exact run_cons rfl ts
  | .array [] => rw [tokens]; exact (run_cons rfl _).trans (run_cons rfl ts)
  | .array (v :: vs) =>
    rw [tokens, List.cons_append, run_cons rfl, List.append_assoc, List.append_assoc, run_tokens v]
    exact run_moreItems v vs [] fs ts
  | .object [] => rw [tokens]; exact (run_cons rfl _).trans (run_cons rfl ts)
  | .object ((k, v) :: ms) =>
    rw [tokens, List.cons_append, List.cons_append, List.cons_append, run_cons rfl, run_cons rfl,
      run_cons rfl, List.append_assoc, List.append_assoc, run_tokens v]
    exact run_moreMembers k v ms [] fs ts

theorem run_moreItems (v : Json) (vs before : List Json) (fs : List Frame) (ts : List Token) :
    run (.after v (.item before :: fs)) (moreItems vs ++ .closeArray :: ts) =
      run (.after (.array (before ++ v :: vs)) fs) ts := by
  match vs with
  | [] => rw [moreItems]; exact run_cons rfl ts
  | w :: vs =>
    rw [moreItems, List.cons_append, run_cons rfl, List.append_assoc, run_tokens w,
      run_moreItems w vs, List.append_assoc]
    rfl

theorem run_moreMembers (k : String) (v : Json) (ms before : List (String × Json))
    (fs : List Frame) (ts : List Token) :
    run (.after v (.member before k :: fs)) (moreMembers ms ++ .closeObject :: ts) =
      run (.after (.object (before ++ (k, v) :: ms)) fs) ts := by
  match ms with
  | [] => rw [moreMembers]; exact run_cons rfl ts
  | (l, w) :: ms =>
    have hkey : step (.key (before ++ [(k, v)]) fs) (.string l) =
        some (.colon (before ++ [(k, v)]) l fs) := by
      cases before <;> rfl
    rw [moreMembers, List.cons_append, List.cons_append, List.cons_append, run_cons rfl,
      run_cons hkey, run_cons rfl, List.append_assoc, run_tokens w, run_moreMembers l w ms,
      List.append_assoc]
    rfl

end

/-! ### What is read is what was written -/

/-- Members with a comma after each. -/
def eachMember (ms : List (String × Json)) : List Token :=
  ms.flatMap fun m => .string m.1 :: .colon :: (tokens m.2 ++ [.comma])

/-- The tokens an open frame has taken, up to the value it waits for. -/
def Frame.spelt : Frame → List Token
  | .item vs => .openArray :: vs.flatMap fun v => tokens v ++ [.comma]
  | .member ms k => .openObject :: eachMember ms ++ [.string k, .colon]

/-- The tokens of the open frames. -/
def speltAll (fs : List Frame) : List Token := fs.reverse.flatMap Frame.spelt

theorem speltAll_cons (f : Frame) (fs : List Frame) :
    speltAll (f :: fs) = speltAll fs ++ f.spelt := by
  rw [speltAll, List.reverse_cons, List.flatMap_append, List.flatMap_singleton]; rfl

/-- The tokens that lead to a state. -/
def State.spelt : State → List Token
  | .value fs => speltAll fs
  | .key ms fs => speltAll fs ++ .openObject :: eachMember ms
  | .colon ms k fs => speltAll fs ++ .openObject :: eachMember ms ++ [.string k]
  | .after v fs => speltAll fs ++ tokens v

theorem tokens_array_concat (vs : List Json) (v : Json) : tokens (.array (vs ++ [v])) =
    (Frame.item vs).spelt ++ tokens v ++ [.closeArray] := by
  have hmore : ∀ us w, tokens w ++ moreItems (us ++ [v]) =
      ((w :: us).flatMap fun w => tokens w ++ [.comma]) ++ tokens v := fun us => by
    induction us with
    | nil => intro w; simp [moreItems]
    | cons u us ih =>
      intro w
      rw [List.cons_append, moreItems, ih u]
      simp
  cases vs with
  | nil => simp [tokens, moreItems, Frame.spelt]
  | cons w vs => rw [List.cons_append, tokens, hmore, Frame.spelt]; simp

theorem tokens_object_concat (ms : List (String × Json)) (k : String) (v : Json) :
    tokens (.object (ms ++ [(k, v)])) =
      (Frame.member ms k).spelt ++ tokens v ++ [.closeObject] := by
  have hmore : ∀ us (w : Json), tokens w ++ moreMembers (us ++ [(k, v)]) =
      tokens w ++ .comma :: eachMember us ++ .string k :: .colon :: tokens v := fun us => by
    induction us with
    | nil => intro w; simp [moreMembers, eachMember]
    | cons u us ih =>
      intro w
      rw [List.cons_append, moreMembers, ih u.2]
      simp [eachMember]
  cases ms with
  | nil => simp [tokens, moreMembers, Frame.spelt, eachMember]
  | cons m ms => rw [List.cons_append, tokens, hmore, Frame.spelt]; simp [eachMember]

theorem spelt_step {s s' : State} {t : Token} (h : step s t = some s') :
    s'.spelt = s.spelt ++ [t] := by
  unfold step at h
  split at h <;> cases h <;>
    simp [State.spelt, speltAll_cons, Frame.spelt, tokens, eachMember, tokens_array_concat,
      tokens_object_concat]

theorem spelt_foldlM {s s' : State} {ts : List Token} (h : ts.foldlM step s = some s') :
    s'.spelt = s.spelt ++ ts := by
  induction ts generalizing s with
  | nil => cases h; rw [List.append_nil]
  | cons t ts ih =>
    rw [List.foldlM_cons] at h
    obtain ⟨r, hr, h⟩ := Option.bind_eq_some_iff.mp h
    rw [ih h, spelt_step hr, List.append_assoc, List.singleton_append]

end Reader

/-- The document a list of tokens is, if it is one. -/
def read (ts : List Token) : Option Json := Reader.run (.value []) ts

theorem read_tokens (v : Json) : read (tokens v) = some v := by
  have := Reader.run_tokens v [] []
  rwa [List.append_nil] at this

/-- **A document is read exactly from its tokens.** -/
theorem read_eq_some_iff {ts : List Token} {v : Json} : read ts = some v ↔ ts = tokens v := by
  refine ⟨fun h => ?_, fun h => h ▸ read_tokens v⟩
  obtain ⟨s, hs, h⟩ := Option.bind_eq_some_iff.mp h
  have hspelt := Reader.spelt_foldlM hs
  unfold Reader.done at h
  split at h
  · cases h
    simpa [Reader.State.spelt, Reader.speltAll] using hspelt.symm
  · cases h

end Json
