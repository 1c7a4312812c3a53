import GcScope.Lib.Blocks
import GcScope.Monitor.Ledger
import GcScope.Monitor.Loss

/-!
# The summary at the end of a run

The accumulators of a run, the retired and the live, are put in order of process, interpreter, span
and generation. The summary goes through them once and starts a block where the process or the
interpreter changes or a generation comes again.

* `Cursor.tagged`, `Cursor.ordered`, `Cursor.observations`: the accumulators and their order.
* `generationSummary`, `summarize`: a row, and the rows in blocks.
* **`summarize_covers`**: the blocks are those of the order, cut where the code cuts it.
* `Separated`, `Anchored`: no block has rows of two spans, and what that takes.
* **`separated_iff_anchored`**: in every run, the one holds exactly when the other does.
-/

set_option autoImplicit false

namespace GcScope

open Std (ExtTreeMap)
open StableSort MachineInt Blocks

/-- An accumulator, its ring, and the span it belongs to: the eviction that retired it, or the top
for one still live. -/
structure TaggedObservation (F : Type) where
  key : RingKey
  span : WithTop ℕ
  observation : RingObservation F
  deriving DecidableEq

namespace TaggedObservation

variable {F : Type}

/-- What an interpreter was watched for, from one forgetting to the next. -/
def spanKey (e : TaggedObservation F) : ℕ ×ₗ ℤ ×ₗ WithTop ℕ :=
  toLex (e.key.pid, toLex (e.key.interpreter, e.span))

/-- Process, interpreter, span, generation. -/
def sortKey (e : TaggedObservation F) : ℕ ×ₗ ℤ ×ₗ WithTop ℕ ×ₗ ℕ :=
  toLex (e.key.pid, toLex (e.key.interpreter, toLex (e.span, e.key.generation)))

theorem spanKey_eq_iff {a b : TaggedObservation F} : a.spanKey = b.spanKey ↔
    a.key.pid = b.key.pid ∧ a.key.interpreter = b.key.interpreter ∧ a.span = b.span := by
  simp [spanKey, Prod.ext_iff]

theorem spanKey_lt_iff {a b : TaggedObservation F} : a.spanKey < b.spanKey ↔
    a.key.pid < b.key.pid ∨ a.key.pid = b.key.pid ∧ (a.key.interpreter < b.key.interpreter ∨
      a.key.interpreter = b.key.interpreter ∧ a.span < b.span) := by
  simp [spanKey, Prod.Lex.toLex_lt_toLex]

theorem spanKey_le_iff {a b : TaggedObservation F} : a.spanKey ≤ b.spanKey ↔
    a.key.pid < b.key.pid ∨ a.key.pid = b.key.pid ∧ (a.key.interpreter < b.key.interpreter ∨
      a.key.interpreter = b.key.interpreter ∧ a.span ≤ b.span) := by
  simp [spanKey, Prod.Lex.toLex_le_toLex]

theorem spanKey_between {a b x : TaggedObservation F} (hp : a.key.pid = b.key.pid)
    (hi : a.key.interpreter = b.key.interpreter) (hax : a.spanKey ≤ x.spanKey)
    (hxb : x.spanKey ≤ b.spanKey) : x.key.pid = b.key.pid ∧ x.key.interpreter = b.key.interpreter ∧
      a.span ≤ x.span ∧ x.span ≤ b.span := by
  rw [spanKey_le_iff] at hax hxb
  rcases hax with hax | ⟨hap, hax⟩
  · rcases hxb with hxb | ⟨hxp, -⟩ <;> omega
  · rcases hxb with hxb | ⟨hxp, hxb⟩
    · omega
    · rcases hax with hax | ⟨hai, hax⟩
      · rcases hxb with hxb | ⟨hxi, -⟩ <;> omega
      · rcases hxb with hxb | ⟨hxi, hxb⟩
        · omega
        · exact ⟨hxp, hxi, hax, hxb⟩

theorem sortKey_lt_iff {a b : TaggedObservation F} : a.sortKey < b.sortKey ↔
    a.spanKey < b.spanKey ∨ a.spanKey = b.spanKey ∧ a.key.generation < b.key.generation := by
  rw [spanKey_lt_iff, spanKey_eq_iff]
  simp only [sortKey, Prod.Lex.toLex_lt_toLex]
  tauto

end TaggedObservation

namespace Cursor

variable {F : Type}

/-- The accumulators, retired ones first. -/
def tagged (c : Cursor F) : List (TaggedObservation F) :=
  c.retired.map (fun e => ⟨e.1, e.2.1, e.2.2⟩) ++ c.rings.toList.map fun e => ⟨e.1, ⊤, e.2⟩

/-- The accumulators by process, interpreter, span and generation. -/
def ordered (c : Cursor F) : List (TaggedObservation F) :=
  stableSort TaggedObservation.sortKey c.tagged

/-- Every ring a Record has been read from, in order. -/
def observations (c : Cursor F) : List (RingKey × RingObservation F) :=
  c.ordered.map fun e => (e.key, e.observation)

end Cursor

/-- What one generation of one interpreter did over a span. -/
structure GenerationSummary (F : Type) where
  generation : ℕ
  collections : ℤ
  collected : ℤ
  uncollectable : ℤ
  records : ℕ
  observed : ℤ
  lost : ℤ
  coverage : F
  pauseTotalNs : Option ℤ
  pauseMeasuredNs : Option ℤ
  scaleFactor : Option F
  deriving DecidableEq

/-- One interpreter of one process. -/
structure InterpreterSummary (F : Type) where
  pid : ℕ
  interpreter : ℤ
  generations : List (GenerationSummary F)
  deriving DecidableEq

section Summary

variable {F : Type} [F64 F]

/-- Mean pause per Collection, in nanoseconds. -/
def GenerationSummary.pauseMeanNs (g : GenerationSummary F) : Option F :=
  match g.pauseTotalNs with
  | some total =>
    if 0 < g.collections then some (F64.div (F64.ofInt total) (F64.ofInt g.collections)) else none
  | none => none

/-- The row of one accumulator. -/
def generationSummary (key : RingKey) (observation : RingObservation F) : GenerationSummary F :=
  let reconstructed := account observation
  { generation := key.generation
    collections := reconstructed.exactCollections
    collected := wrap64 (observation.last.collected - observation.first.collected)
    uncollectable := wrap64 (observation.last.uncollectable - observation.first.uncollectable)
    records := observation.sampled
    observed := reconstructed.observedCollections
    lost := reconstructed.lostCollections
    coverage := reconstructed.coverage
    pauseTotalNs := reconstructed.exactPauseNs
    pauseMeasuredNs := reconstructed.measuredPauseNs
    scaleFactor := reconstructed.scaleFactor }

/-- Put a row in the last block, unless that is of another interpreter or has its generation. -/
def addRow (blocks : List (InterpreterSummary F)) (key : RingKey)
    (generation : GenerationSummary F) : List (InterpreterSummary F) :=
  let opened := blocks ++ [⟨key.pid, key.interpreter, [generation]⟩]
  match blocks.getLast? with
  | some block =>
    if block.pid = key.pid ∧ block.interpreter = key.interpreter ∧
        !(block.generations.any fun g => g.generation == key.generation) then
      blocks.dropLast ++ [{ block with generations := block.generations ++ [generation] }]
    else opened
  | none => opened

/-- Fold the run's accumulators into one summary per interpreter. -/
def summarize (c : Cursor F) : List (InterpreterSummary F) :=
  c.observations.foldl (fun blocks e => addRow blocks e.1 (generationSummary e.1 e.2)) []

/-! ## The cuts -/

/-- The test of the summary, on the accumulators behind the rows. -/
def joins (part : List (TaggedObservation F)) (e : TaggedObservation F) : Bool :=
  part.all fun x => x.key.pid == e.key.pid && x.key.interpreter == e.key.interpreter &&
    x.key.generation != e.key.generation

omit [F64 F] in
theorem joins_iff {part : List (TaggedObservation F)} {e : TaggedObservation F} :
    joins part e = true ↔ ∀ x ∈ part, x.key.pid = e.key.pid ∧
      x.key.interpreter = e.key.interpreter ∧ x.key.generation ≠ e.key.generation := by
  simp [joins, and_assoc]

/-- The row behind an accumulator. -/
def TaggedObservation.row (e : TaggedObservation F) : GenerationSummary F :=
  generationSummary e.key e.observation

/-- The block has the rows of these accumulators, and no others. -/
structure Covers (block : InterpreterSummary F) (part : List (TaggedObservation F)) : Prop where
  pid : ∀ e ∈ part, e.key.pid = block.pid
  interpreter : ∀ e ∈ part, e.key.interpreter = block.interpreter
  rows : block.generations = part.map TaggedObservation.row

/-- On a block and what is behind it, the two tests agree. -/
theorem Covers.joins_iff {block : InterpreterSummary F} {part : List (TaggedObservation F)}
    (h : Covers block part) (hne : part ≠ []) (e : TaggedObservation F) :
    joins part e = true ↔ block.pid = e.key.pid ∧ block.interpreter = e.key.interpreter ∧
      (!(block.generations.any fun g => g.generation == e.key.generation)) = true := by
  obtain ⟨x, hx⟩ := List.exists_mem_of_ne_nil part hne
  have hany : (!(block.generations.any fun g => g.generation == e.key.generation)) = true ↔
      ∀ y ∈ part, y.key.generation ≠ e.key.generation := by
    simp [h.rows, TaggedObservation.row, generationSummary]
  rw [GcScope.joins_iff, hany]
  constructor
  · exact fun hj => ⟨h.pid x hx ▸ (hj x hx).1, h.interpreter x hx ▸ (hj x hx).2.1,
      fun y hy => (hj y hy).2.2⟩
  · exact fun ⟨hp, hi, hg⟩ y hy => ⟨(h.pid y hy).trans hp, (h.interpreter y hy).trans hi, hg y hy⟩

theorem covers_singleton (e : TaggedObservation F) :
    Covers (⟨e.key.pid, e.key.interpreter, [e.row]⟩ : InterpreterSummary F) [e] where
  pid x hx := by rw [List.mem_singleton.mp hx]
  interpreter x hx := by rw [List.mem_singleton.mp hx]
  rows := rfl

theorem Covers.concat {block : InterpreterSummary F} {part : List (TaggedObservation F)}
    (h : Covers block part) {e : TaggedObservation F} (hpid : block.pid = e.key.pid)
    (hinterpreter : block.interpreter = e.key.interpreter) :
    Covers { block with generations := block.generations ++ [e.row] } (part ++ [e]) where
  pid x hx := by
    rcases List.mem_append.mp hx with hx | hx
    · exact h.pid x hx
    · rw [List.mem_singleton.mp hx, hpid]
  interpreter x hx := by
    rcases List.mem_append.mp hx with hx | hx
    · exact h.interpreter x hx
    · rw [List.mem_singleton.mp hx, hinterpreter]
  rows := by rw [h.rows, List.map_append, List.map_singleton]

/-- **The blocks are those of the order, cut where the code cuts it.** -/
theorem covers_blocks (l : List (TaggedObservation F)) : List.Forall₂ Covers
    ((l.map fun e => (e.key, e.observation)).foldl
      (fun blocks e => addRow blocks e.1 (generationSummary e.1 e.2)) []) (blocks joins l) := by
  induction l using List.reverseRecOn with
  | nil => exact List.Forall₂.nil
  | append_singleton l e ih =>
    rw [List.map_append, List.foldl_append]
    generalize (l.map fun e => (e.key, e.observation)).foldl
      (fun blocks e => addRow blocks e.1 (generationSummary e.1 e.2)) [] = done at ih
    simp only [List.map_cons, List.map_nil, List.foldl_cons, List.foldl_nil, addRow]
    rcases blocks_concat joins l e with ⟨ps, p, hl, hj, h'⟩ | ⟨hn, h'⟩
    · rw [hl] at ih
      rw [h']
      obtain ⟨bs, b, rfl, hbs, hb⟩ := ListFacts.exists_of_forall₂_concat ih
      have hp : p ≠ [] := ne_nil_of_mem_blocks joins (l := l) (by rw [hl]; simp)
      rw [List.getLast?_concat, List.dropLast_concat]
      simp only
      rw [if_pos ((hb.joins_iff hp e).mp hj)]
      obtain ⟨hpid, hint, -⟩ := (hb.joins_iff hp e).mp hj
      exact List.rel_append hbs (List.Forall₂.cons (hb.concat hpid hint) List.Forall₂.nil)
    · rw [h']
      rcases List.eq_nil_or_concat (blocks joins l) with hl | ⟨ps, p, hl⟩
      · rw [hl] at ih ⊢
        obtain rfl := List.forall₂_nil_right_iff.mp ih
        exact List.Forall₂.cons (covers_singleton e) List.Forall₂.nil
      · rw [List.concat_eq_append] at hl
        have hp : p ≠ [] := ne_nil_of_mem_blocks joins (l := l) (by rw [hl]; simp)
        have hj := hn p (by rw [hl, List.getLast?_concat])
        have hall := ih
        rw [hl] at ih
        obtain ⟨bs, b, rfl, -, hb⟩ := ListFacts.exists_of_forall₂_concat ih
        rw [List.getLast?_concat]
        simp only
        rw [if_neg fun hjoin => by rw [(hb.joins_iff hp e).mpr hjoin] at hj; cases hj]
        exact List.rel_append hall (List.Forall₂.cons (covers_singleton e) List.Forall₂.nil)

theorem summarize_covers (c : Cursor F) :
    List.Forall₂ Covers (summarize c) (blocks joins c.ordered) := covers_blocks c.ordered

end Summary

/-! ## Spans -/

section Spans

variable {F : Type}

/-- The span of `b` comes right after that of `a`, on the same interpreter. -/
def Follows (c : Cursor F) (a b : TaggedObservation F) : Prop :=
  a.key.pid = b.key.pid ∧ a.key.interpreter = b.key.interpreter ∧ a.span < b.span ∧
    ∀ x ∈ c.tagged, x.key.pid = b.key.pid → x.key.interpreter = b.key.interpreter →
      x.span ≤ a.span ∨ b.span ≤ x.span

instance (c : Cursor F) (a b : TaggedObservation F) : Decidable (Follows c a b) := by
  unfold Follows; infer_instance

/-- No generation of the span of `b` is lower than that of `b`. -/
def Opens (c : Cursor F) (b : TaggedObservation F) : Prop :=
  ∀ x ∈ c.tagged, x.spanKey = b.spanKey → b.key.generation ≤ x.key.generation

instance (c : Cursor F) (b : TaggedObservation F) : Decidable (Opens c b) := by
  unfold Opens; infer_instance

/-- The span of `a` has the generation of `b`. -/
def Shares (c : Cursor F) (a b : TaggedObservation F) : Prop :=
  ∃ x ∈ c.tagged, x.spanKey = a.spanKey ∧ x.key.generation = b.key.generation

instance (c : Cursor F) (a b : TaggedObservation F) : Decidable (Shares c a b) := by
  unfold Shares; infer_instance

/-- Every span of an interpreter that follows another opens with a generation the other has too. -/
def Anchored (c : Cursor F) : Prop :=
  ∀ a ∈ c.tagged, ∀ b ∈ c.tagged, Follows c a b → Opens c b → Shares c a b

instance (c : Cursor F) : Decidable (Anchored c) := by unfold Anchored; infer_instance

variable [F64 F]

/-- The blocks cut the accumulators, each has the rows of one span of one interpreter with
ascending generations, and they stand by process, interpreter and span. -/
def Separated (c : Cursor F) : Prop :=
  ∃ parts, parts.flatten = c.ordered ∧ List.Forall₂ Covers (summarize c) parts ∧
    (∀ part ∈ parts, part ≠ [] ∧ (∀ a ∈ part, ∀ b ∈ part, a.span = b.span) ∧
      part.Pairwise fun a b => a.key.generation < b.key.generation) ∧
    parts.Pairwise fun p q => ∀ a ∈ p, ∀ b ∈ q, a.spanKey ≤ b.spanKey

omit [F64 F] in
@[simp] theorem mem_ordered {c : Cursor F} {e : TaggedObservation F} :
    e ∈ c.ordered ↔ e ∈ c.tagged := mem_stableSort _

/-- **The observations are the accumulators the ledger has.** -/
theorem mem_observations {L : Ledger} {c : Cursor F} (h : L.Backs c) {K : RingKey}
    {o : RingObservation F} : (K, o) ∈ c.observations ↔
      ∃ offers ∈ L.spansOf K, o = .ofRecords (Ledger.folded offers) := by
  have hobs : (K, o) ∈ c.observations ↔ (∃ e ∈ c.retired, e.1 = K ∧ e.2.2 = o) ∨
      c.rings[K]? = some o := by
    simp only [Cursor.observations, List.mem_map, mem_ordered, Cursor.tagged, List.mem_append,
      or_and_right, exists_or, ← ExtTreeMap.mem_toList_iff_getElem?_eq_some]
    refine or_congr ⟨?_, ?_⟩ ⟨?_, ?_⟩
    · rintro ⟨_, ⟨e, he, rfl⟩, heq⟩
      obtain ⟨rfl, rfl⟩ := Prod.mk.inj heq
      exact ⟨e, he, rfl, rfl⟩
    · rintro ⟨e, he, rfl, rfl⟩
      exact ⟨_, ⟨e, he, rfl⟩, rfl⟩
    · rintro ⟨_, ⟨e, he, rfl⟩, heq⟩
      exact heq ▸ he
    · exact fun hm => ⟨_, ⟨_, hm, rfl⟩, rfl⟩
  rw [hobs, h.rings, Cursor.heldAfter_eq_some_iff, h.retired, ne_eq, Ledger.folded_eq_nil]
  simp only [Ledger.spansOf, List.mem_append, List.mem_map, List.mem_filter, List.mem_singleton,
    decide_eq_true_eq, or_and_right, exists_or]
  refine or_congr ⟨?_, ?_⟩ ⟨?_, ?_⟩
  · rintro ⟨_, ⟨e, he, rfl⟩, hK, rfl⟩
    exact ⟨_, ⟨e, ⟨he, hK⟩, rfl⟩, rfl⟩
  · rintro ⟨_, ⟨e, ⟨he, hK⟩, rfl⟩, rfl⟩
    exact ⟨_, ⟨e, he, rfl⟩, hK, rfl⟩
  · rintro ⟨hne, rfl⟩
    exact ⟨_, ⟨rfl, hne⟩, rfl⟩
  · rintro ⟨_, ⟨rfl, hne⟩, rfl⟩
    exact ⟨hne, rfl⟩

/-- **No two accumulators share process, interpreter, span and generation.** -/
theorem pairwise_ordered {L : Ledger} {c : Cursor F} (h : L.Backs c) :
    c.ordered.Pairwise fun a b => a.sortKey < b.sortKey := by
  have hinj : Function.Injective fun k : RingKey × WithTop ℕ =>
      (toLex (k.1.pid, toLex (k.1.interpreter, toLex (k.2, k.1.generation))) :
        ℕ ×ₗ ℤ ×ₗ WithTop ℕ ×ₗ ℕ) := by
    rintro ⟨⟨p, i, g⟩, s⟩ ⟨⟨p', i', g'⟩, s'⟩ he
    simp only [EmbeddingLike.apply_eq_iff_eq, Prod.mk.injEq] at he
    obtain ⟨rfl, rfl, rfl, rfl⟩ := he
    rfl
  have hkeys : (c.tagged.map fun e => (e.key, e.span)).Nodup := by
    rw [Cursor.tagged, List.map_append, List.map_map, List.map_map]
    refine List.nodup_append.mpr ⟨?_, ?_, ?_⟩
    · rw [h.retired, List.map_map]
      have hm := h.nodup.map (f := fun k : RingKey × ℕ => (k.1, (k.2 : WithTop ℕ)))
        fun k k' he => by
          obtain ⟨h₁, h₂⟩ := Prod.mk.inj he
          exact Prod.ext h₁ (WithTop.coe_injective h₂)
      rwa [List.map_map] at hm
    · have hd : (c.rings.toList.map Prod.fst).Nodup := by
        rw [ExtTreeMap.map_fst_toList_eq_keys]; exact ExtTreeMap.nodup_keys
      have hm := hd.map (f := fun K : RingKey => (K, (⊤ : WithTop ℕ)))
        fun _ _ he => (Prod.mk.inj he).1
      rwa [List.map_map] at hm
    · intro x hx y hy he
      obtain ⟨e, -, rfl⟩ := List.mem_map.mp hx
      obtain ⟨e', -, rfl⟩ := List.mem_map.mp hy
      exact WithTop.coe_ne_top (Prod.mk.inj he).2
  have hnodup : (c.ordered.map TaggedObservation.sortKey).Nodup := by
    have hm := hkeys.map hinj
    rw [List.map_map] at hm
    exact ((stableSort_perm _ c.tagged).map TaggedObservation.sortKey).nodup_iff.mpr hm
  refine (List.Pairwise.and (pairwise_stableSort TaggedObservation.sortKey c.tagged)
    (List.pairwise_map.mp hnodup)).imp fun hab => lt_of_le_of_ne hab.1 hab.2

variable {c : Cursor F} (hs : c.ordered.Pairwise fun a b => a.sortKey < b.sortKey)

include hs

omit [F64 F] in
theorem pairwise_spanKey : c.ordered.Pairwise fun a b => a.spanKey ≤ b.spanKey :=
  hs.imp fun hab => (TaggedObservation.sortKey_lt_iff.mp hab).elim le_of_lt fun h => h.1.le

omit [F64 F] in
theorem joins_of_spanKey {pre post b : List (TaggedObservation F)} {e : TaggedObservation F}
    (hl : c.ordered = pre ++ e :: post) (hb : (blocks joins pre).getLast? = some b)
    (hu : ∀ u ∈ b, u.spanKey = e.spanKey) : joins b e = true := by
  refine joins_iff.mpr fun u hub => ?_
  have hup : u ∈ pre := mem_of_mem_blocks joins (List.mem_of_getLast? hb) hub
  rw [hl] at hs
  have hlt := (List.pairwise_append.mp hs).2.2 u hup e List.mem_cons_self
  obtain ⟨hp, hi, -⟩ := TaggedObservation.spanKey_eq_iff.mp (hu u hub)
  refine ⟨hp, hi, ?_⟩
  rcases TaggedObservation.sortKey_lt_iff.mp hlt with h | ⟨-, h⟩
  · exact absurd (hu u hub) h.ne
  · exact h.ne

/-- **The summary is separated exactly when no block it cuts has two spans.** -/
theorem separated_iff_uniform : Separated c ↔
    ∀ b ∈ blocks joins c.ordered, ∀ u ∈ b, ∀ v ∈ b, u.spanKey = v.spanKey := by
  have hcut := summarize_covers c
  constructor
  · rintro ⟨parts, hflat, hcov, hparts, -⟩
    have hlen : ∀ {bs : List (InterpreterSummary F)} {ps : List (List (TaggedObservation F))},
        List.Forall₂ Covers bs ps →
          ps.map List.length = bs.map fun b => b.generations.length := fun h => by
      induction h with
      | nil => rfl
      | cons hb _ ih => rw [List.map_cons, List.map_cons, ih, hb.rows, List.length_map]
    have heq : blocks joins c.ordered = parts := List.eq_iff_flatten_eq.mpr
      ⟨(flatten_blocks joins _).trans hflat.symm, (hlen hcut).trans (hlen hcov).symm⟩
    rw [heq]
    intro p hp u hu v hv
    obtain ⟨block, hblock⟩ : ∃ block, Covers block p := by
      obtain ⟨i, hi, rfl⟩ := List.getElem_of_mem hp
      exact ⟨_, hcov.get (by rw [hcov.length_eq]; exact hi) hi⟩
    exact TaggedObservation.spanKey_eq_iff.mpr ⟨(hblock.pid u hu).trans (hblock.pid v hv).symm,
      (hblock.interpreter u hu).trans (hblock.interpreter v hv).symm, (hparts p hp).2.1 u hu v hv⟩
  · intro hu
    have hflat := flatten_blocks joins c.ordered
    have hsort := hs
    have hspan := pairwise_spanKey hs
    rw [← hflat, List.pairwise_flatten] at hsort hspan
    refine ⟨_, hflat, hcut, fun p hp => ⟨ne_nil_of_mem_blocks joins hp, fun a ha b hb =>
      (TaggedObservation.spanKey_eq_iff.mp (hu p hp a ha b hb)).2.2, ?_⟩, hspan.2⟩
    refine (hsort.1 p hp).imp_of_mem fun ha hb hab => ?_
    rcases TaggedObservation.sortKey_lt_iff.mp hab with h | ⟨-, h⟩
    · exact absurd (hu p hp _ ha _ hb) h.ne
    · exact h

omit [F64 F] in
/-- An accumulator stands after everything of an earlier span, and the lowest generation of a span
stands first in it. -/
theorem mem_pre_iff {pre post : List (TaggedObservation F)} {e : TaggedObservation F}
    (hl : c.ordered = pre ++ e :: post) {x : TaggedObservation F} :
    x ∈ pre ↔ x ∈ c.tagged ∧ x.sortKey < e.sortKey := by
  rw [← mem_ordered, hl]
  rw [hl] at hs
  obtain ⟨-, hpost, hpre⟩ := List.pairwise_append.mp hs
  constructor
  · exact fun hx => ⟨List.mem_append_left _ hx, hpre x hx e List.mem_cons_self⟩
  · rintro ⟨hx, hlt⟩
    rcases List.mem_append.mp hx with hx | hx
    · exact hx
    · rcases List.mem_cons.mp hx with rfl | hx
      · exact absurd hlt (lt_irrefl _)
      · exact absurd (hlt.trans ((List.pairwise_cons.mp hpost).1 x hx)) (lt_irrefl _)

omit [F64 F] in
theorem mem_last_block {pre post b : List (TaggedObservation F)} {e u x : TaggedObservation F}
    (hl : c.ordered = pre ++ e :: post)
    (hu : ∀ b ∈ blocks joins pre, ∀ u ∈ b, ∀ v ∈ b, u.spanKey = v.spanKey)
    (hb : (blocks joins pre).getLast? = some b) (hub : u ∈ b) (hx : x ∈ pre)
    (hxu : u.spanKey ≤ x.spanKey) : x ∈ b := by
  have hpre : pre.Pairwise fun a b : TaggedObservation F => a.spanKey ≤ b.spanKey := by
    have := pairwise_spanKey hs
    rw [hl] at this
    exact (List.pairwise_append.mp this).1
  have hsort := pairwise_blocks joins hpre hu fun pre' a post' e' b' hb' hab' => by
    have hl' : c.ordered = pre' ++ a :: (post' ++ e :: post) := by rw [hl, e']; simp
    exact joins_of_spanKey hs hl' hb' hab'
  obtain ⟨bs, hbs⟩ := List.getLast?_eq_some_iff.mp hb
  rw [← flatten_blocks joins pre, hbs] at hx
  obtain ⟨p, hp, hxp⟩ := List.mem_flatten.mp hx
  rcases List.mem_append.mp hp with hp | hp
  · rw [hbs] at hsort
    have := (List.pairwise_append.mp hsort).2.2 p hp b (List.mem_singleton_self b) x hxp u hub
    exact absurd (hxu.trans_lt this) (lt_irrefl _)
  · rwa [← List.mem_singleton.mp hp]

omit [F64 F] in
/-- What an accumulator joins is of its own span, where the spans are anchored. -/
theorem spanKey_eq_of_joins (ha : Anchored c) {pre post b : List (TaggedObservation F)}
    {e : TaggedObservation F} (hl : c.ordered = pre ++ e :: post)
    (hu : ∀ b ∈ blocks joins pre, ∀ u ∈ b, ∀ v ∈ b, u.spanKey = v.spanKey)
    (hb : (blocks joins pre).getLast? = some b) (hj : joins b e = true) :
    ∀ u ∈ b, u.spanKey = e.spanKey := by
  have hmem : b ∈ blocks joins pre := List.mem_of_getLast? hb
  intro u hub
  have hup : u ∈ pre := mem_of_mem_blocks joins hmem hub
  by_contra hne
  obtain ⟨hp, hi, -⟩ := joins_iff.mp hj u hub
  have hue : u.spanKey < e.spanKey := by
    rcases TaggedObservation.sortKey_lt_iff.mp ((mem_pre_iff hs hl).mp hup).2 with h | ⟨h, -⟩
    · exact h
    · exact absurd h hne
  have hlt : u.span < e.span := by
    rcases TaggedObservation.spanKey_lt_iff.mp hue with h | ⟨-, h | ⟨-, h⟩⟩
    · exact absurd hp h.ne
    · exact absurd hi h.ne
    · exact h
  -- what stands before `e`, from the span of `u` on, is in the block
  have hin : ∀ x ∈ c.tagged, x.sortKey < e.sortKey → u.spanKey ≤ x.spanKey →
      x ∈ b ∧ x.spanKey = u.spanKey := fun x hx hxe hxu => by
    have hxb := mem_last_block hs hl hu hb hub ((mem_pre_iff hs hl).mpr ⟨hx, hxe⟩) hxu
    exact ⟨hxb, hu b hmem x hxb u hub⟩
  have hfollows : Follows c u e := by
    refine ⟨hp, hi, hlt, fun x hx hxp hxi => ?_⟩
    by_contra hn
    obtain ⟨hux, hxe⟩ := not_or.mp hn
    have hxe : x.spanKey < e.spanKey := TaggedObservation.spanKey_lt_iff.mpr
      (Or.inr ⟨hxp, Or.inr ⟨hxi, not_le.mp hxe⟩⟩)
    have hux : u.spanKey < x.spanKey := TaggedObservation.spanKey_lt_iff.mpr
      (Or.inr ⟨hp.trans hxp.symm, Or.inr ⟨hi.trans hxi.symm, not_le.mp hux⟩⟩)
    exact hux.ne' (hin x hx (TaggedObservation.sortKey_lt_iff.mpr (Or.inl hxe)) hux.le).2
  have hopens : Opens c e := fun x hx hxe => by
    by_contra hxg
    have hlt := TaggedObservation.sortKey_lt_iff.mpr (Or.inr ⟨hxe, not_le.mp hxg⟩)
    exact hne ((hin x hx hlt (hxe ▸ hue.le)).2.symm.trans hxe)
  obtain ⟨x, hx, hxu, hxg⟩ := ha u ((mem_pre_iff hs hl).mp hup).1 e
    (mem_ordered.mp (by rw [hl]; simp)) hfollows hopens
  obtain ⟨hxb, -⟩ := hin x hx (TaggedObservation.sortKey_lt_iff.mpr (Or.inl (hxu ▸ hue))) hxu.ge
  exact (joins_iff.mp hj x hxb).2.2 hxg

omit [F64 F] in
/-- A span the blocks keep apart from the one before it opens with a generation of that one. -/
theorem anchored_of_uniform
    (hu : ∀ b ∈ blocks joins c.ordered, ∀ u ∈ b, ∀ v ∈ b, u.spanKey = v.spanKey) : Anchored c := by
  rintro a ha e he ⟨hp, hi, hlt, hbetween⟩ hopens
  obtain ⟨pre, post, hl⟩ := List.append_of_mem (mem_ordered.mpr he)
  have hupre : ∀ b ∈ blocks joins pre, ∀ u ∈ b, ∀ v ∈ b, u.spanKey = v.spanKey := by
    rw [uniform_blocks_iff] at hu ⊢
    exact fun pre' a post' e' => hu pre' a (post' ++ e :: post) (by rw [hl, e']; simp)
  have hae : a.spanKey < e.spanKey := TaggedObservation.spanKey_lt_iff.mpr
    (Or.inr ⟨hp, Or.inr ⟨hi, hlt⟩⟩)
  have hap : a ∈ pre := (mem_pre_iff hs hl).mpr
    ⟨ha, TaggedObservation.sortKey_lt_iff.mpr (Or.inl hae)⟩
  -- the block before `e`, and an accumulator in it
  obtain ⟨b, hb⟩ : ∃ b, (blocks joins pre).getLast? = some b := by
    refine Option.isSome_iff_exists.mp (List.getLast?_isSome.mpr fun hn => ?_)
    rw [← flatten_blocks joins pre, hn] at hap
    cases hap
  have hmem : b ∈ blocks joins pre := List.mem_of_getLast? hb
  obtain ⟨y, hy⟩ := List.exists_mem_of_ne_nil b (ne_nil_of_mem_blocks joins hmem)
  obtain ⟨hyt, hye⟩ := (mem_pre_iff hs hl).mp (mem_of_mem_blocks joins hmem hy)
  have hay : a.spanKey ≤ y.spanKey := by
    by_contra hn
    have := mem_last_block hs hl hupre hb hy hap (not_le.mp hn).le
    exact hn (hupre b hmem a this y hy).le
  have hye' : y.spanKey ≤ e.spanKey :=
    (TaggedObservation.sortKey_lt_iff.mp hye).elim le_of_lt fun h => h.1.le
  obtain ⟨hyp, hyi, hay', hys⟩ := TaggedObservation.spanKey_between hp hi hay hye'
  have hne : y.spanKey ≠ e.spanKey := fun h => by
    rcases TaggedObservation.sortKey_lt_iff.mp hye with h' | ⟨-, h'⟩
    · exact h'.ne h
    · exact absurd (hopens y hyt h) (not_le.mpr h')
  have hya : y.spanKey = a.spanKey := by
    rcases hbetween y hyt hyp hyi with h | h
    · exact TaggedObservation.spanKey_eq_iff.mpr ⟨hyp.trans hp.symm, hyi.trans hi.symm,
        le_antisymm h hay'⟩
    · exact absurd (TaggedObservation.spanKey_eq_iff.mpr ⟨hyp, hyi, le_antisymm hys h⟩) hne
  -- it does not take `e` in, which only a generation it has can keep out
  have hj : ¬ joins b e = true := fun hj =>
    hne ((uniform_blocks_iff joins _ _).mp hu pre e post hl b hb hj y hy)
  rw [joins_iff] at hj
  push Not at hj
  obtain ⟨x, hxb, hx⟩ := hj
  have hxa : x.spanKey = a.spanKey := (hupre b hmem x hxb y hy).trans hya
  obtain ⟨hxp, hxi, -⟩ := TaggedObservation.spanKey_eq_iff.mp hxa
  exact ⟨x, ((mem_pre_iff hs hl).mp (mem_of_mem_blocks joins hmem hxb)).1, hxa,
    hx (hxp.trans hp) (hxi.trans hi)⟩

/-- **The summary is separated exactly when the spans are anchored.** -/
theorem separated_iff_anchored : Separated c ↔ Anchored c := by
  rw [separated_iff_uniform hs]
  refine ⟨anchored_of_uniform hs, fun ha => ?_⟩
  have hall : ∀ pre post, c.ordered = pre ++ post →
      ∀ b ∈ blocks joins pre, ∀ u ∈ b, ∀ v ∈ b, u.spanKey = v.spanKey := by
    intro pre
    induction pre using List.reverseRecOn with
    | nil => exact fun _ _ b hb => absurd hb List.not_mem_nil
    | append_singleton pre e ih =>
      intro post hl
      rw [List.append_assoc, List.singleton_append] at hl
      have hu := ih (e :: post) hl
      exact (uniform_blocks_concat_iff joins _ pre e).mpr
        ⟨hu, fun b hb hj => spanKey_eq_of_joins hs ha hl hu hb hj⟩
  exact hall c.ordered [] (List.append_nil _).symm

end Spans

/-- **When the summary keeps two lives of a PID apart.** After every history of operations, the
blocks cut the accumulators into the rows of one span each, in order, exactly when every span of an
interpreter that follows another opens with a generation the other has too. -/
theorem summarize_separates {F : Type} [F64 F] (ops : List CursorOp) :
    Separated (Mealy.exec Cursor.apply (Cursor.new : Cursor F) ops) ↔
      Anchored (Mealy.exec Cursor.apply (Cursor.new : Cursor F) ops) := by
  have hb := backs_ledger (F := F) (ops.flatMap CursorOp.steps)
  rw [Cursor.exec_flatMap_steps] at hb
  exact separated_iff_anchored (pairwise_ordered hb)

/-- A PID watched for its generation 0, given up, and watched again for its generation 1. -/
def reusedPid : List CursorOp :=
  [.admitRecords 7 [Cursor.timedEntry 5 9 1], .forget 7,
    .admitRecords 7 [{ Cursor.timedEntry 12 15 1 with generation := 1 }]]

/-- **Two lives of the PID end up in one block.** -/
theorem not_separated_reusedPid :
    (summarize (Mealy.exec Cursor.apply (Cursor.new : Cursor (Secs fun w => w.toInt))
      reusedPid)).map (fun b => (b.pid, b.interpreter, b.generations.map fun g => g.generation)) =
        [(7, 0, [0, 1])] ∧
    ¬ Separated (Mealy.exec Cursor.apply (Cursor.new : Cursor (Secs fun w => w.toInt))
      reusedPid) := by
  have hb := backs_ledger (F := Secs fun w => w.toInt) (reusedPid.flatMap CursorOp.steps)
  rw [Cursor.exec_flatMap_steps] at hb
  refine ⟨by decide +kernel, fun h => ?_⟩
  have ha := (separated_iff_anchored (pairwise_ordered hb)).mp h
  exact absurd ha (by decide +kernel)

end GcScope
