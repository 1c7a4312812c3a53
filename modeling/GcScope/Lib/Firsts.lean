import Mathlib.Data.List.Nodup
import GcScope.Lib.ListFacts
import GcScope.Lib.Mealy

/-!
# The first item of each key

Some items have a key. An item whose key has come before is dropped; the others go by.

* `pass`, `firsts`: one item, and a list.
* `firsts_append`: what goes by of a list depends on the keys before it.
* `exists_mem_firsts`, **`nodup_firsts`**: every key that comes stays, and stays once.
* **`exists_of_firsts_eq`**: an item that goes by is where it was, with its key not seen before.
* **`filter_firsts_eq_cons`**: where the items that name a key never come before it, the one with the
  key is the first of them that goes by, and the only one of its kind.
-/

set_option autoImplicit false

namespace Firsts

variable {α κ : Type*} [DecidableEq κ] (key : α → Option κ)

/-- An item goes by, unless its key has been seen. -/
def pass (seen : List κ) (a : α) : List κ × List α :=
  match key a with
  | none => (seen, [a])
  | some k => if k ∈ seen then (seen, []) else (k :: seen, [a])

/-- The keys seen. -/
def seen (l : List α) : List κ := Mealy.exec (pass key) [] l

/-- The items that go by. -/
def firsts (l : List α) : List α := Mealy.outs (pass key) [] l

/-- The items that go by after others. -/
def after (l m : List α) : List α := Mealy.outs (pass key) (seen key l) m

theorem firsts_append (l m : List α) : firsts key (l ++ m) = firsts key l ++ after key l m :=
  Mealy.outs_append _ _ l m

theorem firsts_concat (l : List α) (a : α) :
    firsts key (l ++ [a]) = firsts key l ++ (pass key (seen key l) a).2 := Mealy.outs_concat _ _ l a

theorem seen_concat (l : List α) (a : α) : seen key (l ++ [a]) = (pass key (seen key l) a).1 :=
  Mealy.exec_concat _ _ l a

variable {key} {l : List α} {a : α} {k : κ}

theorem pass_none {s : List κ} (h : key a = none) : pass key s a = (s, [a]) := by
  rw [pass, h]

theorem pass_seen {s : List κ} (h : key a = some k) (hk : k ∈ s) : pass key s a = (s, []) := by
  rw [pass, h]; exact if_pos hk

theorem pass_new {s : List κ} (h : key a = some k) (hk : k ∉ s) :
    pass key s a = (k :: s, [a]) := by
  rw [pass, h]; exact if_neg hk

theorem pass_cases (key : α → Option κ) (s : List κ) (a : α) :
    (key a = none ∧ pass key s a = (s, [a])) ∨
    (∃ k ∈ s, key a = some k ∧ pass key s a = (s, [])) ∨
    (∃ k ∉ s, key a = some k ∧ pass key s a = (k :: s, [a])) := by
  cases h : key a with
  | none => exact Or.inl ⟨rfl, pass_none h⟩
  | some k =>
    by_cases hk : k ∈ s
    · exact Or.inr (Or.inl ⟨k, hk, rfl, pass_seen h hk⟩)
    · exact Or.inr (Or.inr ⟨k, hk, rfl, pass_new h hk⟩)

theorem mem_seen : k ∈ seen key l ↔ ∃ b ∈ l, key b = some k := by
  induction l using List.reverseRecOn with
  | nil => simp [seen]
  | append_singleton l a ih =>
    rw [seen_concat]
    rcases pass_cases key (seen key l) a with ⟨ha, hp⟩ | ⟨k', hk', ha, hp⟩ | ⟨k', hk', ha, hp⟩
    · simp [hp, ih, or_and_right, exists_or, ha]
    · rw [hp, ih]
      refine ⟨fun ⟨b, hb, hk⟩ => ⟨b, List.mem_append_left _ hb, hk⟩, fun ⟨b, hb, hk⟩ => ?_⟩
      rcases List.mem_append.mp hb with hb | hb
      · exact ⟨b, hb, hk⟩
      · rw [List.mem_singleton.mp hb, ha] at hk
        obtain rfl := Option.some.inj hk
        exact ih.mp hk'
    · simp [hp, ih, or_and_right, exists_or, ha, or_comm, eq_comm]

theorem mem_of_mem_outs {s : List κ} (h : a ∈ Mealy.outs (pass key) s l) : a ∈ l := by
  obtain ⟨pre, b, post, rfl, hm⟩ := (Mealy.mem_outs _).mp h
  have hab : a = b := by
    rcases pass_cases key (Mealy.exec (pass key) s pre) b with ⟨_, hp⟩ | ⟨_, _, _, hp⟩ | ⟨_, _, _, hp⟩
    · rw [hp] at hm; exact List.mem_singleton.mp hm
    · rw [hp] at hm; cases hm
    · rw [hp] at hm; exact List.mem_singleton.mp hm
  rw [hab]
  exact List.mem_append_right _ List.mem_cons_self

theorem mem_of_mem_firsts (h : a ∈ firsts key l) : a ∈ l := mem_of_mem_outs h

theorem mem_of_mem_after {m : List α} (h : a ∈ after key l m) : a ∈ m := mem_of_mem_outs h

theorem filter_isNone_firsts (l : List α) :
    (firsts key l).filter (fun a => (key a).isNone) = l.filter fun a => (key a).isNone := by
  induction l using List.reverseRecOn with
  | nil => rfl
  | append_singleton l a ih =>
    rw [firsts_concat, List.filter_append, List.filter_append, ih]
    refine congrArg _ ?_
    rcases pass_cases key (seen key l) a with ⟨_, hp⟩ | ⟨k, -, hk, hp⟩ | ⟨k, -, -, hp⟩
    · rw [hp]
    · rw [hp]
      simp [hk]
    · rw [hp]

theorem mem_firsts_of_none (h : a ∈ l) (ha : key a = none) : a ∈ firsts key l := by
  obtain ⟨pre, post, rfl⟩ := List.append_of_mem h
  exact (Mealy.mem_outs _).mpr
    ⟨pre, a, post, rfl, by rw [pass_none ha]; exact List.mem_singleton_self a⟩

/-- **An item that goes by is where it was, and its key had not come before.** -/
theorem exists_of_firsts_eq {before post : List α} (h : firsts key l = before ++ a :: post) :
    ∃ l₁ l₂, l = l₁ ++ a :: l₂ ∧ firsts key l₁ = before ∧
      ∀ k, key a = some k → ∀ b ∈ l₁, key b ≠ some k := by
  induction l using List.reverseRecOn generalizing post with
  | nil => simp [firsts] at h
  | append_singleton l x ih =>
    rw [firsts_concat] at h
    have hkeep : ∀ {p : List α}, firsts key l = before ++ a :: p →
        ∃ l₁ l₂, l ++ [x] = l₁ ++ a :: l₂ ∧ firsts key l₁ = before ∧
          ∀ k, key a = some k → ∀ b ∈ l₁, key b ≠ some k := fun hp => by
      obtain ⟨l₁, l₂, rfl, hf, hk⟩ := ih hp
      exact ⟨l₁, l₂ ++ [x], by simp, hf, hk⟩
    have hlast : (∀ k, key x = some k → k ∉ seen key l) →
        firsts key l ++ [x] = before ++ a :: post →
        ∃ l₁ l₂, l ++ [x] = l₁ ++ a :: l₂ ∧ firsts key l₁ = before ∧
          ∀ k, key a = some k → ∀ b ∈ l₁, key b ≠ some k := fun hx he => by
      rcases List.eq_nil_or_concat post with rfl | ⟨p, y, rfl⟩
      · obtain ⟨hf, hxa⟩ := List.append_inj' he rfl
        obtain rfl : x = a := by simpa using hxa
        exact ⟨l, [], rfl, hf, fun k hk b hb hbk => hx k hk (mem_seen.mpr ⟨b, hb, hbk⟩)⟩
      · refine hkeep (p := p) ((List.append_singleton_inj (a := x) (b := y)).mp ?_).1
        rw [he]
        simp
    rcases pass_cases key (seen key l) x with ⟨hx, hp⟩ | ⟨k', -, hx, hp⟩ | ⟨k', hk', hx, hp⟩
    · rw [hp] at h
      exact hlast (fun k hk => by rw [hx] at hk; cases hk) h
    · rw [hp, List.append_nil] at h
      exact hkeep h
    · rw [hp] at h
      exact hlast (fun k hk => by rw [hx] at hk; rwa [← Option.some.inj hk]) h

/-- A key that comes goes by. -/
theorem exists_mem_firsts (h : a ∈ l) (ha : key a = some k) :
    ∃ b ∈ firsts key l, key b = some k := by
  induction l using List.reverseRecOn generalizing a with
  | nil => cases h
  | append_singleton l x ih =>
    rw [firsts_concat]
    by_cases hk : k ∈ seen key l
    · obtain ⟨b, hb, hbk⟩ := mem_seen.mp hk
      obtain ⟨c, hc, hck⟩ := ih hb hbk
      exact ⟨c, List.mem_append_left _ hc, hck⟩
    · rcases List.mem_append.mp h with h | h
      · exact absurd (mem_seen.mpr ⟨a, h, ha⟩) hk
      · obtain rfl := List.mem_singleton.mp h
        refine ⟨a, List.mem_append_right _ ?_, ha⟩
        rw [pass_new ha hk]
        exact List.mem_singleton_self a

variable (key) in
theorem nodup_firsts (l : List α) : ((firsts key l).filterMap key).Nodup := by
  induction l using List.reverseRecOn with
  | nil => exact List.nodup_nil
  | append_singleton l x ih =>
    rw [firsts_concat, List.filterMap_append]
    rcases pass_cases key (seen key l) x with ⟨hx, hp⟩ | ⟨k', -, hx, hp⟩ | ⟨k', hk', hx, hp⟩
    · rw [hp]; simpa [hx] using ih
    · rw [hp]; simpa using ih
    · rw [hp]
      refine List.nodup_append.mpr ⟨ih, by simp [hx], fun k hk j hj => ?_⟩
      obtain ⟨b, hb, hbk⟩ := List.mem_filterMap.mp hk
      rintro rfl
      have : k = k' := by simpa [hx, eq_comm] using hj
      exact hk' (this ▸ mem_seen.mpr ⟨b, mem_of_mem_firsts hb, hbk⟩)

theorem firsts_eq_nil_iff : firsts key l = [] ↔ l = [] := by
  refine ⟨fun h => ?_, fun h => by rw [h]; rfl⟩
  by_contra hl
  obtain ⟨a, ha⟩ := List.exists_mem_of_ne_nil l hl
  cases hk : key a with
  | none => exact List.ne_nil_of_mem (mem_firsts_of_none ha hk) h
  | some k =>
    obtain ⟨b, hb, -⟩ := exists_mem_firsts ha hk
    exact List.ne_nil_of_mem hb h

/-- What goes by after a list has none of its keys. -/
theorem not_mem_seen_of_mem_after {m : List α} (h : a ∈ after key l m) (ha : key a = some k) :
    k ∉ seen key l := fun hk => by
  obtain ⟨b, hb, hbk⟩ := mem_seen.mp hk
  obtain ⟨c, hc, hck⟩ := exists_mem_firsts hb hbk
  have hnd := nodup_firsts key (l ++ m)
  rw [firsts_append, List.filterMap_append] at hnd
  exact (List.nodup_append.mp hnd).2.2 k (List.mem_filterMap.mpr ⟨c, hc, hck⟩) k
    (List.mem_filterMap.mpr ⟨a, h, ha⟩) rfl

theorem after_of_none {m : List α} (h : ∀ b ∈ m, key b = none) : after key l m = m := by
  have hall : ∀ s, Mealy.outs (pass key) s m = m := by
    induction m with
    | nil => exact fun _ => rfl
    | cons b m ih =>
      intro s
      rw [Mealy.outs_cons, pass_none (h b List.mem_cons_self),
        ih (fun c hc => h c (List.mem_cons_of_mem b hc))]
      rfl
  exact hall _

theorem after_append (m n : List α) : after key l (m ++ n) = after key l m ++ after key (l ++ m) n := by
  rw [after, Mealy.outs_append, after, after, seen, seen, Mealy.exec_append]

/-- **Where the items that name a key never come before it, the one with the key is the first of them
that goes by, and the only one of its kind.** -/
theorem filter_firsts_eq_cons {names : α → Bool} (hnames : ∀ a, key a = some k → names a = true)
    (hlead : ∀ l₁ a l₂, l = l₁ ++ a :: l₂ → names a = true →
      key a = some k ∨ ∃ b ∈ l₁, key b = some k)
    (h : ∃ a ∈ firsts key l, names a = true) :
    ∃ a rest, (firsts key l).filter names = a :: rest ∧ key a = some k ∧
      ∀ b ∈ rest, key b ≠ some k := by
  obtain ⟨before, a, after, hsplit, hbefore, ha⟩ := ListFacts.exists_first h
  obtain ⟨l₁, l₂, hl, hf, -⟩ := exists_of_firsts_eq hsplit
  have hka : key a = some k := by
    rcases hlead l₁ a l₂ hl ha with hka | ⟨b, hb, hbk⟩
    · exact hka
    · obtain ⟨c, hc, hck⟩ := exists_mem_firsts hb hbk
      exact absurd (hnames c hck) (hbefore c (hf ▸ hc))
  refine ⟨a, after.filter names, ?_, hka, fun b hb hbk => ?_⟩
  · rw [hsplit, List.filter_append, List.filter_cons_of_pos ha, List.filter_eq_nil_iff.mpr hbefore]
    rfl
  · have hnd := nodup_firsts key l
    rw [hsplit, List.filterMap_append, List.filterMap_cons_some hka] at hnd
    have hnd := (List.nodup_cons.mp (List.nodup_append.mp hnd).2.1).1
    exact hnd (List.mem_filterMap.mpr ⟨b, List.mem_of_mem_filter hb, hbk⟩)

end Firsts
