import GcScope.Probe.Callback
import GcScope.Probe.Complete

/-!
# What a reader finds of the callbacks

The region of an interpreter, decoded, against the callbacks the interpreter made, whatever other
interpreters called in between.

* `Ticks`: the clock of an interpreter's callbacks never goes back.
* **`inOrder_of_ticks`**: its start-stop pairs then follow one another.
* **`callbacks_read_back`**: the region decodes to the last of them.
-/

set_option autoImplicit false

namespace GcScope.Probe

/-- The clock of the callbacks never goes back, and starts at zero or later. -/
def Ticks (l : List OnGc) : Prop :=
  (∀ c ∈ l, 0 ≤ c.now.toInt) ∧ l.Pairwise fun a b => a.now.toInt ≤ b.now.toInt

instance (l : List OnGc) : Decidable (Ticks l) := by unfold Ticks; infer_instance

theorem pendingStart_mem {l : List OnGc} {c : OnGc} (h : pendingStart l = some c) : c ∈ l :=
  List.mem_reverse.mp ((List.takeWhile_prefix _).subset (List.mem_of_mem_head? h))

theorem pairOf_eq_some {h : Host} {before : List OnGc} {stop : OnGc} {call : Call}
    (hp : pairOf h before stop = some call) : stop.isStop = true ∧ ∃ start,
      pendingStart before = some start ∧ call.tsStart = start.now ∧ call.tsStop = stop.now := by
  unfold pairOf at hp
  split_ifs at hp with hstop
  obtain ⟨start, hstart, hp⟩ := Option.bind_eq_some_iff.mp hp
  obtain ⟨gen, -, hp⟩ := Option.bind_eq_some_iff.mp hp
  obtain rfl := Option.some.inj hp
  exact ⟨hstop, start, hstart, rfl, rfl⟩

/-- The pairs so far follow one another, and the start that is pending comes after them. -/
structure InOrder (h : Host) (l : List OnGc) : Prop where
  sequential : Sequential (pairs h l)
  /-- Each stops at a callback. -/
  stops : ∀ call ∈ pairs h l, ∃ c ∈ l, call.tsStop = c.now
  pending : ∀ start, pendingStart l = some start →
    ∀ call ∈ pairs h l, call.tsStop.toInt ≤ start.now.toInt

/-- **What one callback keeps.** -/
theorem InOrder.concat {h : Host} {l : List OnGc} {c : OnGc} (hl : InOrder h l)
    (ht : Ticks (l ++ [c])) : InOrder h (l ++ [c]) := by
  obtain ⟨hpos, hmono⟩ := ht
  have hlast : ∀ x ∈ l, x.now.toInt ≤ c.now.toInt := fun x hx =>
    (List.pairwise_append.mp hmono).2.2 x hx c (List.mem_singleton_self c)
  have hstops : ∀ call ∈ pairs h l, call.tsStop.toInt ≤ c.now.toInt := fun call hcall => by
    obtain ⟨x, hx, he⟩ := hl.stops call hcall
    rw [he]
    exact hlast x hx
  cases hp : pairOf h l c with
  | none =>
    have hpairs : pairs h (l ++ [c]) = pairs h l := by
      rw [pairs_concat, hp]
      exact List.append_nil _
    refine ⟨hpairs ▸ hl.sequential, fun call hcall => ?_, fun start hstart call hcall => ?_⟩
    · rw [hpairs] at hcall
      obtain ⟨x, hx, he⟩ := hl.stops call hcall
      exact ⟨x, List.mem_append_left _ hx, he⟩
    · rw [hpairs] at hcall
      rw [pendingStart_concat] at hstart
      split_ifs at hstart
      rw [← Option.some.inj hstart]
      exact hstops call hcall
  | some call =>
    obtain ⟨hstop, start, hstart, hs, he⟩ := pairOf_eq_some hp
    have hpairs : pairs h (l ++ [c]) = pairs h l ++ [call] := by
      rw [pairs_concat, hp]
      rfl
    have hmem := pendingStart_mem hstart
    refine ⟨⟨?_, ?_⟩, ?_, ?_⟩
    · intro x hx
      rw [hpairs] at hx
      rcases List.mem_append.mp hx with hx | hx
      · exact hl.sequential.1 x hx
      · rw [List.mem_singleton.mp hx, hs, he]
        exact ⟨hpos start (List.mem_append_left _ hmem), hlast start hmem⟩
    · rw [hpairs]
      refine List.pairwise_append.mpr ⟨hl.sequential.2, List.pairwise_singleton _ _, ?_⟩
      intro x hx y hy
      rw [List.mem_singleton.mp hy, hs]
      exact hl.pending start hstart x hx
    · intro x hx
      rw [hpairs] at hx
      rcases List.mem_append.mp hx with hx | hx
      · obtain ⟨y, hy, he⟩ := hl.stops x hx
        exact ⟨y, List.mem_append_left _ hy, he⟩
      · exact ⟨c, by simp, by rw [List.mem_singleton.mp hx, he]⟩
    · -- a stop leaves nothing pending
      intro s hpend
      rw [pendingStart_concat, if_pos hstop] at hpend
      cases hpend

/-- **The start-stop pairs of an interpreter follow one another.** -/
theorem inOrder_of_ticks (h : Host) {l : List OnGc} (ht : Ticks l) : InOrder h l := by
  induction l using List.reverseRecOn with
  | nil => exact ⟨⟨by simp [pairs], List.Pairwise.nil⟩, by simp [pairs], by simp [pairs]⟩
  | append_singleton l c ih =>
    refine (ih ⟨fun x hx => ht.1 x (List.mem_append_left _ hx), ?_⟩).concat ht
    exact (List.pairwise_append.mp ht.2).1

/-- **What a reader finds of the callbacks.** Whatever the interpreters of a process call and in
whatever order, the region of an interpreter with a slot decodes, generation by generation, to the
cumulative Records of the interpreter's own last start-stop pairs and zeros where there are fewer;
and where its clock never goes back these pairs follow one another, as a reader between two stores
needs. -/
theorem callbacks_read_back {F : Type} [F64 F] (h : Host) (d : Depths) (acts : List Act)
    (i : Fin maxInterp) (iid : ℤ) :
    let final := Mealy.exec (Table.step h) (Table.zero d) acts
    let callbacks := callbacksOf (final.slots i).interpId acts
    (final.slots i).claimed = true → (∀ g, TotalsInRange (callsOf g (pairs h callbacks))) →
      (∀ g, ((((probeTable d).decodeGcStats (final.slots i).stats.bytes iid).filter
          fun r => r.generation = g.val).map (published F)).Perm
        (lastCumulative F h.fadd (d.of g) (callsOf g (pairs h callbacks)) ++
          List.replicate (d.of g - min (callsOf g (pairs h callbacks)).length (d.of g)) .zero)) ∧
      (Ticks callbacks → Sequential (pairs h callbacks)) := by
  intro final callbacks hi hr
  have hslot := (inv_run (d := d) (h := h) acts).slots i
  have hstats : (final.slots i).stats = run h.fadd d (pairs h callbacks) :=
    hslot.stats.trans (congrArg (run h.fadd d) (hslot.paired hi))
  refine ⟨fun g => ?_, fun ht => (inOrder_of_ticks h ht).sequential⟩
  rw [hstats, decode_generation, List.map_map, List.map_congr_left fun j _ => by
    rw [Function.comp_apply, (buffer_run h.fadd (pairs h callbacks) g).1 j]]
  have hring := slots_perm (F := F) h.fadd g (d.of g) iid (hr g)
  rwa [← List.map_coe_finRange_eq_range, List.map_map] at hring

/-- A start and a stop of one interpreter, with a start of another one between them. -/
def twoInterpreters : List Act :=
  [.onGc ⟨some 1, 2, some "start", none, 100, some ⟨1, 40⟩⟩,
    .onGc ⟨some 2, 2, some "start", none, 150, some ⟨1, 50⟩⟩,
    .onGc ⟨some 1, 2, some "stop", some ⟨some (some 0), some (some 7), some (some 0)⟩, 300, none⟩]

/-- What is found of it in the first slot. -/
theorem callbacks_read_back_twoInterpreters :
    ((((probeTable .compiled).decodeGcStats ((Mealy.exec (Table.step ⟨fun _ _ => 0, fun _ => 0, 64,
      by decide, true, .passed⟩) (Table.zero .compiled) twoInterpreters).slots ⟨0, by decide⟩).stats.bytes
        0).filter fun r => r.generation = (0 : Fin 3).val).map (published (Secs fun _ => 0))).length =
      11 := by
  refine ((callbacks_read_back (F := Secs fun _ => 0) ⟨fun _ _ => 0, fun _ => 0, 64, by decide, true,
    .passed⟩ .compiled twoInterpreters ⟨0, by decide⟩ 0 ?_ ?_).1 0).length_eq.trans ?_
  · decide
  · decide
  · decide

end GcScope.Probe
