import GcScope.RemoteDebugging.Session

/-!
# The walk over the interpreter chain

The chain is read from a process that goes on changing it: a link can lead back, lead nowhere or
not be read at all.

* `FollowsChain`: the addresses from the head up to the first null link, repeated address or
  unreadable link; `followsChain_unique` and `followsChain_chainFrom`: there is exactly one such list.
* `walkFromM`: the walk with readers that have effects, as the code's closures may;
  **`walkFromM_logged`** ties it to `walkFrom` and says which addresses it reads.
* `walkFrom_past_head`: past the head nothing collected is lost.
* **`walk_exact`**: what the walk returns, what it reads and when it fails.
-/

set_option autoImplicit false

namespace GcScope

variable {ε : Type} {readStats : BitVec 64 → Except ε (Option (List GcStat))}
  {readNext : BitVec 64 → Except ε (BitVec 64)}

/-! ## The chain -/

/-- The list starts at the head and goes from link to link until a link is null, leads back or
cannot be read. -/
structure FollowsChain (readNext : BitVec 64 → Except ε (BitVec 64)) (head : BitVec 64)
    (chain : List (BitVec 64)) : Prop where
  starts : chain.head? = if head = 0 then none else some head
  links : chain.IsChain fun a b => readNext a = .ok b
  nonnull : 0 ∉ chain
  nodup : chain.Nodup
  stops : ∀ a ∈ chain.getLast?, ∀ next, readNext a = .ok next → next = 0 ∨ next ∈ chain

/-- The addresses of the chain from `current` on that are not among the visited. -/
def chainFrom (readNext : BitVec 64 → Except ε (BitVec 64)) (current : BitVec 64)
    (visited : List (BitVec 64)) : List (BitVec 64) :=
  if current = 0 then []
  else if current ∈ visited then []
  else current :: match readNext current with
    | .ok next => chainFrom readNext next (current :: visited)
    | .error _ => []
termination_by (unvisited visited).card
decreasing_by exact unvisited_lt ‹_›

theorem chainFrom_of_stop {current : BitVec 64} {visited : List (BitVec 64)}
    (h : current = 0 ∨ current ∈ visited) : chainFrom readNext current visited = [] := by
  rw [chainFrom]
  split_ifs with h₀ hv
  · rfl
  · rfl
  · exact absurd (h.resolve_left h₀) hv

theorem chainFrom_of_next {current next : BitVec 64} {visited : List (BitVec 64)}
    (h₀ : current ≠ 0) (hv : current ∉ visited) (hn : readNext current = .ok next) :
    chainFrom readNext current visited =
      current :: chainFrom readNext next (current :: visited) := by
  rw [chainFrom, if_neg h₀, if_neg hv, hn]

theorem chainFrom_of_error {current : BitVec 64} {visited : List (BitVec 64)} {e : ε}
    (h₀ : current ≠ 0) (hv : current ∉ visited) (hn : readNext current = .error e) :
    chainFrom readNext current visited = [current] := by
  rw [chainFrom, if_neg h₀, if_neg hv, hn]

theorem chainFrom_fresh (current : BitVec 64) (visited : List (BitVec 64)) :
    (chainFrom readNext current visited).Nodup ∧
      ∀ a ∈ chainFrom readNext current visited, a ≠ 0 ∧ a ∉ visited := by
  induction current, visited using chainFrom.induct with
  | case1 visited =>
    rw [chainFrom_of_stop (Or.inl rfl)]
    exact ⟨List.nodup_nil, fun a ha => absurd ha List.not_mem_nil⟩
  | case2 current visited h₀ hv =>
    rw [chainFrom_of_stop (Or.inr hv)]
    exact ⟨List.nodup_nil, fun a ha => absurd ha List.not_mem_nil⟩
  | case3 current visited h₀ hv ih =>
    cases hn : readNext current with
    | error e =>
      rw [chainFrom_of_error h₀ hv hn]
      exact ⟨List.nodup_singleton current, fun a ha => List.mem_singleton.mp ha ▸ ⟨h₀, hv⟩⟩
    | ok next =>
      obtain ⟨hnodup, hfresh⟩ := ih next
      rw [chainFrom_of_next h₀ hv hn]
      refine ⟨List.nodup_cons.mpr ⟨fun h => (hfresh _ h).2 List.mem_cons_self, hnodup⟩, ?_⟩
      intro a ha
      rcases List.mem_cons.mp ha with rfl | ha
      · exact ⟨h₀, hv⟩
      · exact ⟨(hfresh a ha).1, fun hav => (hfresh a ha).2 (List.mem_cons_of_mem _ hav)⟩

theorem head?_chainFrom (current : BitVec 64) (visited : List (BitVec 64)) :
    (chainFrom readNext current visited).head? =
      if current = 0 ∨ current ∈ visited then none else some current := by
  by_cases h : current = 0 ∨ current ∈ visited
  · rw [chainFrom_of_stop h, if_pos h]; rfl
  · rw [chainFrom, if_neg fun h₀ => h (Or.inl h₀), if_neg fun hv => h (Or.inr hv), if_neg h]; rfl

theorem chainFrom_links (current : BitVec 64) (visited : List (BitVec 64)) :
    (chainFrom readNext current visited).IsChain (fun a b => readNext a = .ok b) ∧
      ∀ a ∈ (chainFrom readNext current visited).getLast?, ∀ next, readNext a = .ok next →
        next = 0 ∨ next ∈ visited ∨ next ∈ chainFrom readNext current visited := by
  induction current, visited using chainFrom.induct with
  | case1 visited =>
    rw [chainFrom_of_stop (Or.inl rfl)]
    exact ⟨List.isChain_nil, fun a ha => by cases ha⟩
  | case2 current visited h₀ hv =>
    rw [chainFrom_of_stop (Or.inr hv)]
    exact ⟨List.isChain_nil, fun a ha => by cases ha⟩
  | case3 current visited h₀ hv ih =>
    cases hn : readNext current with
    | error e =>
      rw [chainFrom_of_error h₀ hv hn]
      refine ⟨List.isChain_singleton current, fun a ha next hnext => ?_⟩
      obtain rfl : current = a := Option.some.inj ha
      rw [hn] at hnext
      cases hnext
    | ok next =>
      obtain ⟨hlinks, hstops⟩ := ih next
      have hvisited : ∀ x ∈ current :: visited, ∀ rest, x = 0 ∨ x ∈ visited ∨ x ∈ current :: rest :=
        fun x hx rest => (List.mem_cons.mp hx).elim
          (fun h => Or.inr (Or.inr (h ▸ List.mem_cons_self))) fun h => Or.inr (Or.inl h)
      have hhead : (chainFrom readNext next (current :: visited)).head? = _ :=
        head?_chainFrom next (current :: visited)
      rw [chainFrom_of_next h₀ hv hn]
      cases hc : chainFrom readNext next (current :: visited) with
      | nil =>
        refine ⟨List.isChain_singleton current, fun a ha next' hnext => ?_⟩
        obtain rfl : current = a := Option.some.inj ha
        obtain rfl : next = next' := Except.ok.inj (hn.symm.trans hnext)
        rw [hc] at hhead
        split_ifs at hhead with h
        · exact h.elim Or.inl fun h => hvisited next h []
        · cases hhead
      | cons b rest =>
        rw [hc] at hhead hlinks hstops
        obtain rfl : b = next := by
          split_ifs at hhead with h
          · cases hhead
          · exact Option.some.inj hhead
        refine ⟨List.isChain_cons_cons.mpr ⟨hn, hlinks⟩, fun a ha next' hnext => ?_⟩
        rcases hstops a (by simpa using ha) next' hnext with h | h | h
        · exact Or.inl h
        · exact hvisited next' h (b :: rest)
        · exact Or.inr (Or.inr (List.mem_cons_of_mem _ h))

/-- The walk's own recursion yields the chain. -/
theorem followsChain_chainFrom (head : BitVec 64) :
    FollowsChain readNext head (chainFrom readNext head []) where
  starts := by simpa using head?_chainFrom head []
  links := (chainFrom_links head []).1
  nonnull := fun h => ((chainFrom_fresh head []).2 0 h).1 rfl
  nodup := (chainFrom_fresh head []).1
  stops := fun a ha next hn => by
    rcases (chainFrom_links head []).2 a ha next hn with h | h | h
    · exact Or.inl h
    · cases h
    · exact Or.inr h

theorem prefix_of_links {l l' : List (BitVec 64)} (hh : l.head? = l'.head?)
    (hl : l.IsChain fun a b => readNext a = .ok b) (hl' : l'.IsChain fun a b => readNext a = .ok b) :
    l <+: l' ∨ l' <+: l := by
  induction l generalizing l' with
  | nil => exact Or.inl List.nil_prefix
  | cons a l ih =>
    cases l' with
    | nil => exact Or.inr List.nil_prefix
    | cons a' l' =>
      obtain rfl : a = a' := Option.some.inj hh
      have hnext : l.head? = l'.head? ∨ l = [] ∨ l' = [] := by
        cases l with
        | nil => exact Or.inr (Or.inl rfl)
        | cons b l =>
          cases l' with
          | nil => exact Or.inr (Or.inr rfl)
          | cons b' l' =>
            have h := (List.isChain_cons_cons.mp hl).1
            have h' := (List.isChain_cons_cons.mp hl').1
            exact Or.inl (congrArg some (Except.ok.inj (h.symm.trans h')))
      rcases hnext with h | rfl | rfl
      · rcases ih h hl.tail hl'.tail with hp | hp
        · exact Or.inl (List.cons_prefix_cons.mpr ⟨rfl, hp⟩)
        · exact Or.inr (List.cons_prefix_cons.mpr ⟨rfl, hp⟩)
      · exact Or.inl (List.cons_prefix_cons.mpr ⟨rfl, List.nil_prefix⟩)
      · exact Or.inr (List.cons_prefix_cons.mpr ⟨rfl, List.nil_prefix⟩)

/-- A chain ends where it must: it has no proper extension. -/
theorem FollowsChain.eq_of_prefix {head : BitVec 64} {l l' : List (BitVec 64)}
    (h : FollowsChain readNext head l) (h' : FollowsChain readNext head l') (hp : l <+: l') :
    l = l' := by
  obtain ⟨rest, rfl⟩ := hp
  cases rest with
  | nil => rw [List.append_nil]
  | cons b rest =>
    exfalso
    cases hl : l.getLast? with
    | none =>
      obtain rfl := List.getLast?_eq_none_iff.mp hl
      have := h.starts.trans h'.starts.symm
      cases this
    | some a =>
      obtain ⟨l₀, rfl⟩ := List.getLast?_eq_some_iff.mp hl
      have hlink := h'.links
      rw [List.append_assoc, List.singleton_append, List.isChain_append_cons_cons] at hlink
      rcases h.stops a hl b hlink.2.1 with rfl | hb
      · exact h'.nonnull (List.mem_append_right _ List.mem_cons_self)
      · exact (List.nodup_append.mp h'.nodup).2.2 b hb b List.mem_cons_self rfl

/-- **There is one chain.** -/
theorem followsChain_unique {head : BitVec 64} {l l' : List (BitVec 64)}
    (h : FollowsChain readNext head l) (h' : FollowsChain readNext head l') : l = l' := by
  rcases prefix_of_links (h.starts.trans h'.starts.symm) h.links h'.links with hp | hp
  · exact h.eq_of_prefix h' hp
  · exact (h'.eq_of_prefix h hp).symm

/-! ## The walk -/

/-- The Records a reader yields for an interpreter; none where the read fails or there is nothing
to read. -/
def collectedAt (readStats : BitVec 64 → Except ε (Option (List GcStat))) (addr : BitVec 64) :
    List GcStat :=
  match readStats addr with
  | .ok (some read) => read
  | _ => []

theorem visitInterpreter_past_head (stats : List GcStat) (addr : BitVec 64) :
    visitInterpreter false stats (readStats addr) = .ok (stats ++ collectedAt readStats addr) := by
  unfold visitInterpreter collectedAt
  cases readStats addr with
  | error e => simp
  | ok read => cases read <;> simp

theorem visitInterpreter_head {addr : BitVec 64} {read : Option (List GcStat)}
    (h : readStats addr = .ok read) (head : Bool) (stats : List GcStat) :
    visitInterpreter head stats (readStats addr) = .ok (stats ++ collectedAt readStats addr) := by
  unfold visitInterpreter collectedAt
  rw [h]
  cases read <;> simp

/-- **Past the head the walk collects the rest of the chain**, whatever fails on the way. -/
theorem walkFrom_past_head (allInterpreters : Bool) (current : BitVec 64)
    (visited : List (BitVec 64)) (stats : List GcStat) :
    walkFrom allInterpreters readStats readNext current visited false stats =
      .ok (stats ++ (chainFrom readNext current visited).flatMap (collectedAt readStats)) := by
  induction current, visited using chainFrom.induct generalizing stats with
  | case1 visited =>
    rw [walkFrom, if_pos rfl, chainFrom_of_stop (Or.inl rfl), List.flatMap_nil, List.append_nil]
  | case2 current visited h₀ hv =>
    rw [walkFrom, if_neg h₀, if_pos hv, chainFrom_of_stop (Or.inr hv), List.flatMap_nil,
      List.append_nil]
  | case3 current visited h₀ hv ih =>
    rw [walkFrom, if_neg h₀, if_neg hv, visitInterpreter_past_head]
    simp only [Bool.false_and, Bool.false_eq_true, if_false]
    cases hn : readNext current with
    | error e => rw [chainFrom_of_error h₀ hv hn, List.flatMap_singleton]
    | ok next =>
      simp only
      rw [ih, chainFrom_of_next h₀ hv hn, List.flatMap_cons, List.append_assoc]

section Effects

variable {m : Type → Type} [Monad m]

/-- The walk with readers that have effects. -/
def walkFromM (allInterpreters : Bool)
    (readStats : BitVec 64 → m (Except ε (Option (List GcStat))))
    (readNext : BitVec 64 → m (Except ε (BitVec 64)))
    (current : BitVec 64) (visited : List (BitVec 64)) (head : Bool) (stats : List GcStat) :
    m (Except ε (List GcStat)) :=
  if current = 0 then pure (.ok stats)
  else if current ∈ visited then pure (.ok stats)
  else do
    match visitInterpreter head stats (← readStats current) with
    | .error e => pure (.error e)
    | .ok stats =>
      if head && !allInterpreters then pure (.ok stats)
      else
        match ← readNext current with
        | .ok next => walkFromM allInterpreters readStats readNext next (current :: visited) false stats
        | .error e => pure (if head then .error e else .ok stats)
termination_by (unvisited visited).card
decreasing_by exact unvisited_lt ‹_›

/-- A reader of stats that keeps a log of the addresses it is asked for. -/
def loggedStats (readStats : BitVec 64 → Except ε (Option (List GcStat))) (addr : BitVec 64) :
    StateM (List (BitVec 64)) (Except ε (Option (List GcStat))) := do
  modify (· ++ [addr])
  return readStats addr

end Effects

/-- **The walk with effects does what the walk does, and reads along the chain.** -/
theorem walkFromM_logged (allInterpreters : Bool) (current : BitVec 64)
    (visited : List (BitVec 64)) (head : Bool) (stats : List GcStat) (log : List (BitVec 64)) :
    ∃ reads, reads <+: chainFrom readNext current visited ∧
      (walkFromM allInterpreters (loggedStats readStats) (fun addr => pure (readNext addr)) current
        visited head stats).run log =
          (walkFrom allInterpreters readStats readNext current visited head stats, log ++ reads) := by
  induction current, visited using chainFrom.induct generalizing head stats log with
  | case1 visited =>
    refine ⟨[], List.nil_prefix, ?_⟩
    rw [walkFromM, walkFrom, if_pos rfl, if_pos rfl, List.append_nil]
    rfl
  | case2 current visited h₀ hv =>
    refine ⟨[], List.nil_prefix, ?_⟩
    rw [walkFromM, walkFrom, if_neg h₀, if_neg h₀, if_pos hv, if_pos hv, List.append_nil]
    rfl
  | case3 current visited h₀ hv ih =>
    have hone : [current] <+: chainFrom readNext current visited := by
      rw [chainFrom, if_neg h₀, if_neg hv]
      exact List.cons_prefix_cons.mpr ⟨rfl, List.nil_prefix⟩
    rw [walkFromM, walkFrom, if_neg h₀, if_neg h₀, if_neg hv, if_neg hv]
    simp only [loggedStats, bind_assoc, pure_bind, StateT.run_bind, StateT.run_modify]
    cases visitInterpreter head stats (readStats current) with
    | error e => exact ⟨[current], hone, rfl⟩
    | ok stats =>
      simp only
      by_cases ha : (head && !allInterpreters) = true
      · rw [if_pos ha, if_pos ha]
        exact ⟨[current], hone, rfl⟩
      · rw [if_neg ha, if_neg ha]
        cases hn : readNext current with
        | error e => exact ⟨[current], hone, by cases head <;> rfl⟩
        | ok next =>
          obtain ⟨reads, hreads, hrun⟩ := ih next false stats (log ++ [current])
          rw [List.append_assoc, List.singleton_append] at hrun
          refine ⟨current :: reads, ?_, hrun⟩
          rw [chainFrom_of_next h₀ hv hn]
          exact List.cons_prefix_cons.mpr ⟨rfl, hreads⟩

theorem walkInterpreterChain_eq {head : BitVec 64} (h₀ : head ≠ 0) (allInterpreters : Bool) :
    walkInterpreterChain head allInterpreters readStats readNext =
      match readStats head with
      | .error e => .error e
      | .ok _ =>
        if allInterpreters then
          match readNext head with
          | .error e => .error e
          | .ok _ => .ok ((chainFrom readNext head []).flatMap (collectedAt readStats))
        else .ok (collectedAt readStats head) := by
  rw [walkInterpreterChain, walkFrom, if_neg h₀, if_neg List.not_mem_nil]
  cases hs : readStats head with
  | error e => rfl
  | ok read =>
    rw [← hs, visitInterpreter_head hs, List.nil_append, hs]
    cases allInterpreters with
    | false => rfl
    | true =>
      simp only [Bool.not_true, Bool.and_false, Bool.false_eq_true, if_false, if_true]
      cases hn : readNext head with
      | error e => rfl
      | ok next =>
        simp only
        rw [walkFrom_past_head, chainFrom_of_next h₀ List.not_mem_nil hn, List.flatMap_cons]

/-- **The walk is total and exact.** For any head and any readers there is one chain. Along it every
interpreter's stats are read at most once. The walk fails exactly when the head is not null and
either its stats cannot be read or, with all interpreters asked for, its link cannot; otherwise it
returns the stats of the whole chain in order, or those of the head alone. -/
theorem walk_exact (head : BitVec 64) (allInterpreters : Bool)
    (readStats : BitVec 64 → Except ε (Option (List GcStat)))
    (readNext : BitVec 64 → Except ε (BitVec 64)) :
    ∃ chain, (FollowsChain readNext head chain ∧
        ∀ chain', FollowsChain readNext head chain' → chain' = chain) ∧
      (∃ reads, reads <+: chain ∧ reads.Nodup ∧
        (walkFromM allInterpreters (loggedStats readStats) (fun addr => pure (readNext addr)) head []
          true []).run [] =
            (walkInterpreterChain head allInterpreters readStats readNext, reads)) ∧
      ((∃ e, walkInterpreterChain head allInterpreters readStats readNext = .error e) ↔
        head ≠ 0 ∧ ((∃ e, readStats head = .error e) ∨
          allInterpreters = true ∧ ∃ e, readNext head = .error e)) ∧
      ∀ stats, walkInterpreterChain head allInterpreters readStats readNext = .ok stats →
        stats = if allInterpreters then chain.flatMap (collectedAt readStats)
          else if head = 0 then [] else collectedAt readStats head := by
  have hchain : FollowsChain readNext head (chainFrom readNext head []) := followsChain_chainFrom head
  refine ⟨chainFrom readNext head [], ⟨hchain, fun _ h => followsChain_unique h hchain⟩, ?_, ?_, ?_⟩
  · obtain ⟨reads, hreads, hrun⟩ := walkFromM_logged allInterpreters head [] true [] []
    exact ⟨reads, hreads, hchain.nodup.sublist hreads.sublist, hrun⟩
  · by_cases h₀ : head = 0
    · subst h₀
      simp [walkInterpreterChain, walkFrom]
    · rw [walkInterpreterChain_eq h₀]
      simp only [ne_eq, h₀, not_false_eq_true, true_and]
      cases readStats head <;> cases allInterpreters <;> cases readNext head <;> simp
  · intro stats hstats
    by_cases h₀ : head = 0
    · subst h₀
      rw [walkInterpreterChain, walkFrom, if_pos rfl] at hstats
      rw [chainFrom_of_stop (Or.inl rfl), ← Except.ok.inj hstats]
      simp
    · rw [walkInterpreterChain_eq h₀] at hstats
      cases hs : readStats head <;> cases allInterpreters <;> cases hn : readNext head <;>
        simp_all

end GcScope
