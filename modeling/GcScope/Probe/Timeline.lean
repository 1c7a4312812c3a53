import GcScope.Monitor.TraceView
import GcScope.Probe.Complete

/-!
# From the callbacks of a program to the pauses on a timeline

The Probe writes, a reader copies the region between any two stores, the cursor picks out what is new,
the exporter writes it down as a Chrome trace, and a viewer draws the file.

* `pauseOn`: the span a Collection should be drawn as.
* **`timeline_exact`**: the viewer draws one for each Collection that took time and that some copy held
  whole.
-/

set_option autoImplicit false

namespace GcScope.Probe

open MachineInt

section Timeline

variable (fadd : BitVec 64 → BitVec 64 → BitVec 64) (d : Depths) (calls : List Call) (F : Type) [F64 F]

/-- The span of a Collection: its own start and stop, and the running totals of its generation. -/
def pauseOn (pid : ℕ) (iid : ℤ) (q : Fin calls.length) : ViewSpan :=
  let totals : Published F := cumulative fadd (callsOf (calls.get q).gen (calls.take (q + 1)))
  ⟨pid, iid, "GC Pause (gen=" ++ toString (calls.get q).gen.val ++ ")",
    "gc.pause(gen=" ++ toString (calls.get q).gen.val ++ ")",
    [("generation", ((calls.get q).gen.val : ℤ)), ("iid", iid),
      ("collections", (rank calls q + 1 : ℤ)), ("heap_size", (calls.get q).heapSize.toInt),
      ("collected", totals.collected), ("uncollectable", totals.uncollectable), ("candidates", 0)],
    tsUs (calls.get q).tsStart.toInt, tsUs (calls.get q).tsStop.toInt⟩

variable {fadd d calls F} {iid : ℤ} {r : GcStat} {q : Fin calls.length}

theorem Describes.published (hr : ∀ g, TotalsInRange (callsOf g calls))
    (h : Describes fadd calls iid r q) :
    published F r = cumulative fadd (callsOf (calls.get q).gen (calls.take (q + 1))) := by
  have hpre : callsOf (calls.get q).gen (calls.take (q + 1)) <+: callsOf (calls.get q).gen calls :=
    (List.take_prefix _ _).filter _
  rw [h, entryOf]
  exact published_totals fadd _ _ iid (List.prefix_iff_eq_take.mp hpre ▸ (hr _).take _)

theorem Describes.duration (h : Describes fadd calls iid r q) :
    (r.duration : F) = F64.ofBits (entryOf fadd calls q).duration := by
  rw [h, GcStat.duration, getF64_recordOf]
  rfl

theorem phaseSpans_recordOf (pid : ℕ) (g : Fin 3) (i : ℕ) (e : GenerationStats) :
    PHASES.flatMap (phaseSpans pid (recordOf g i iid e)) = [] := by
  have hall : ∀ phase ∈ PHASES, ringLayout.fieldOffset phase.stop = none := by decide
  refine List.flatMap_eq_nil_iff.mpr fun phase hphase => ?_
  have hget : (recordOf g i iid e).get phase.stop = none := by
    rw [GcStat.get, recordOf, hall phase hphase]
    rfl
  rw [phaseSpans, hget]

theorem Describes.spansOf (hr : ∀ g, TotalsInRange (callsOf g calls)) (hl : calls.length < 2 ^ 63)
    (pid : ℕ) (h : Describes fadd calls iid r q) :
    spansOf pid r = [pauseOn fadd calls F pid iid q] := by
  have hp := h.published (F := F) hr
  have ht : r.hasTiming = true := by rw [h]; rfl
  have hg : r.generation = (calls.get q).gen.val := congrArg RingKey.generation (h.ring pid)
  have hi : r.interpreterId = iid := congrArg RingKey.interpreter (h.ring pid)
  have hphase : PHASES.flatMap (phaseSpans pid r) = [] := by
    rw [h]
    exact phaseSpans_recordOf pid _ _ _
  have hlast : (callsOf (calls.get q).gen (calls.take (q + 1))).getLast? = some (calls.get q) :=
    (congrArg List.getLast? (callsOf_take_succ q)).trans List.getLast?_concat
  have hheap : r.heapSize = (calls.get q).heapSize.toInt := by
    have := congrArg Published.heapSize hp
    rwa [cumulative, hlast] at this
  have hcand : r.candidates = 0 := congrArg Published.candidates hp
  have hcol : r.collected = (cumulative fadd (callsOf (calls.get q).gen (calls.take (q + 1))) :
    Published F).collected := congrArg Published.collected hp
  have hunc : r.uncollectable = (cumulative fadd (callsOf (calls.get q).gen (calls.take (q + 1))) :
    Published F).uncollectable := congrArg Published.uncollectable hp
  rw [GcScope.spansOf, if_pos ht, hphase, List.nil_append, pauseSpan, pauseOn, hg, hi, hheap, hcand,
    hcol, hunc, h.collections hl, h.tsStart, h.tsStop]
  push_cast
  rfl

/-- **From the Collections to the timeline.** A reader copies the region of one interpreter at moments
that may fall between any two stores of the writer, hands what it decodes to the cursor, and what the
cursor returns is converted and written to a file in batches split anywhere. Where the durations are
finite, a viewer of that file draws one span for each Collection that took time and that some copy held
whole, with its own start and stop and the totals so far, in the order they ran and never overlapping,
and nothing else. -/
theorem timeline_exact [StdDisplayF64 F] (hs : Sequential calls) (hl : calls.length < 2 ^ 63)
    (hr : ∀ g, TotalsInRange (callsOf g calls))
    (hfinite : ∀ q, F64.isFinite (F64.ofBits (entryOf fadd calls q).duration : F) = true)
    (pid : ℕ) (iid observedAtNs : ℤ) {ts : List ℕ} (hts : ts.Pairwise (· ≤ ·))
    (x : ChromeTraceExporter) (batches : List (List (TraceEvent F)))
    (hb : batches.flatten = (Mealy.outs Cursor.apply (Cursor.new : Cursor F)
      (polls fadd d calls pid iid ts)).flatMap fun r => convertRecord pid r observedAtNs) :
    ∃ elements, traceJson (fun _ => true) x batches = some (.array elements) ∧
      spansIn elements = (seenWhole fadd d calls ts).map (pauseOn fadd calls F pid iid) ∧
      (spansIn elements).Pairwise fun a b => a.stopUs ≤ b.startUs := by
  have hseen := @outs_polls fadd d calls F _ hs hl pid iid ts hts
  obtain ⟨rs, hrs⟩ : ∃ rs, Mealy.outs Cursor.apply (Cursor.new : Cursor F)
      (polls fadd d calls pid iid ts) = rs := ⟨_, rfl⟩
  rw [hrs] at hseen hb
  have hcs : batches.flatten = (rs.map fun r => (⟨pid, r, observedAtNs⟩ : Conversion)).flatMap
      Conversion.events := by
    rw [hb, List.flatMap_map]
    rfl
  have hfin : ∀ c ∈ rs.map fun r => (⟨pid, r, observedAtNs⟩ : Conversion),
      c.record.hasTiming = true → F64.isFinite (c.record.duration : F) = true := by
    intro c hc _
    obtain ⟨r, hr, rfl⟩ := List.mem_map.mp hc
    obtain ⟨i, hi, rfl⟩ := List.mem_iff_getElem.mp hr
    have hd : Describes fadd calls iid rs[i] _ := hseen.get hi (hseen.length_eq ▸ hi)
    rw [hd.duration]
    exact hfinite _
  have hvalid : TraceValid x batches :=
    (traceValid_iff_kept x hcs).mpr (hcs ▸ (finite_kept_iff _).mpr hfin)
  rw [TraceValid, hcs] at hvalid
  have hspans : spansIn ((kept ((rs.map fun r => (⟨pid, r, observedAtNs⟩ : Conversion)).flatMap
      Conversion.events : List (TraceEvent F))).map TraceEvent.json) =
        (seenWhole fadd d calls ts).map (pauseOn fadd calls F pid iid) := by
    rw [spansIn_run, List.flatMap_map]
    exact ListFacts.flatMap_eq_map_of_forall₂ hseen fun h => h.spansOf hr hl pid
  refine ⟨_, hvalid, hspans, ?_⟩
  rw [hspans]
  exact List.pairwise_map.mpr ((pairwise_seenWhole hs ts).imp fun hab => tsUs_mono hab)

end Timeline

/-- Two young Collections and an old one between them, read in the middle of the last and after it, are
drawn as the three pauses they were. -/
theorem timeline_exact_two_generations : ∃ elements,
    traceJson (F := WholeF64) (fun _ => true) .new
      [(Mealy.outs Cursor.apply (Cursor.new : Cursor WholeF64) (polls (fun _ _ => 0) .compiled
        [⟨0, 5000, 9000, 0, 7, 0, 40⟩, ⟨1, 10000, 12000, 0, 2, 0, 39⟩, ⟨0, 20000, 23000, 0, 3, 0, 38⟩]
          7 0 [25, 30])).flatMap fun r => convertRecord 7 r 0] = some (.array elements) ∧
      (spansIn elements).map (fun s => (s.name, s.startUs, s.stopUs)) =
        [("GC Pause (gen=0)", 5, 9), ("GC Pause (gen=1)", 10, 12), ("GC Pause (gen=0)", 20, 23)] ∧
      (spansIn elements).Pairwise fun a b => a.stopUs ≤ b.startUs := by
  obtain ⟨elements, hparse, hspans, hordered⟩ := @timeline_exact (fun _ _ => 0) .compiled
    [⟨0, 5000, 9000, 0, 7, 0, 40⟩, ⟨1, 10000, 12000, 0, 2, 0, 39⟩, ⟨0, 20000, 23000, 0, 3, 0, 38⟩]
    WholeF64 _ _ (by decide) (by decide) (by decide) (by decide +kernel) 7 0 0 [25, 30] (by decide) .new
    _ List.flatten_singleton
  refine ⟨elements, hparse, ?_, hordered⟩
  rw [hspans]
  decide +kernel

end GcScope.Probe
