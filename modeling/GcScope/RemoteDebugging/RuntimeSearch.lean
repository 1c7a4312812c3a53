import GcScope.Lib.ListFacts
import GcScope.RemoteDebugging.Attach
import GcScope.RemoteDebugging.ImageSafe

/-!
# Finding the runtime of a process

The search goes through the modules of a process until a runtime section has the cookie. A module that
cannot be read, parsed or located is left behind; one whose section lies in memory that cannot be read
ends the search.

* `Disk.tryFindRuntime`: the search, with the files and the parsers it reads through.
* `Disk.tryFindRuntime_eq`: without panics, it is the search of the machine.
* `Disk.visit`: what the search does at one module.
* `moduleSection_eq_none_iff`: the module whose lookup panics.
* **`tryFindRuntime_finds_iff`**: the search answers with the first valid module unless an earlier one
  ends it.
* `unreadable_cookie_ends`: a search that is ended.
-/

set_option autoImplicit false

namespace GcScope

open ListFacts LittleEndian

/-- The files of a machine, and the parsers that take them apart. -/
structure Disk where
  goblin : Goblin
  file : String → Option (List UInt8)

namespace Disk

variable (d : Disk) (w : Machine) (pid : Pid)

/-- Look through the modules of a process for a section with the cookie. -/
def tryModules : List (String × BitVec 64) → Option (Except FindError (BitVec 64 × String))
  | [] => some (.error (.noSection pid))
  | (path, baseAddr) :: rest =>
    match d.file path with
    | none => tryModules rest
    | some bytes =>
      match d.goblin.sectionAddr bytes baseAddr with
      | none => none
      | some none => tryModules rest
      | some (some addr) =>
        match w.validateCookie pid addr with
        | .error e => some (.error e)
        | .ok true => some (.ok (addr, path))
        | .ok false => tryModules rest

/-- The runtime address of a process and the path of its module. -/
def tryFindRuntime : Option (Except FindError (BitVec 64 × String)) :=
  match w.modules pid with
  | .error text => some (.error (.modules text))
  | .ok [] => some (.error (.noModules pid))
  | .ok modules => d.tryModules w pid modules

/-! ## One module -/

/-- The address of a module's runtime section. -/
def moduleSection (m : String × BitVec 64) : Option (Option (BitVec 64)) :=
  match d.file m.1 with
  | none => some none
  | some bytes => d.goblin.sectionAddr bytes m.2

/-- The module's section is found, and its cookie reads back. -/
def valid (m : String × BitVec 64) : Option (BitVec 64 × String) :=
  match d.moduleSection m with
  | some (some addr) =>
    if w.readMemory pid addr cookie.length = some cookie then some (addr, m.1) else none
  | _ => none

/-- The module's section is found where the process cannot be read. -/
def Unreadable (m : String × BitVec 64) : Prop :=
  ∃ addr, d.moduleSection m = some (some addr) ∧ w.readMemory pid addr cookie.length = none

/-- The module is an ELF image with a runtime section and a first loadable segment of alignment zero. -/
def ZeroAligned (m : String × BitVec 64) : Prop :=
  ∃ bytes elf, d.file m.1 = some bytes ∧ classify bytes = some .elf ∧ d.goblin.elf bytes = some elf ∧
    (elf.sectionNamed [".PyRuntime", "PyRuntime"]).isSome = true ∧ elf.ZeroAligned

/-- What the search does at one module: go on, or end with an answer. -/
def visit (m : String × BitVec 64) : Option (Option (Except FindError (BitVec 64 × String))) :=
  match d.moduleSection m with
  | none => some none
  | some none => none
  | some (some addr) =>
    match w.validateCookie pid addr with
    | .error e => some (some (.error e))
    | .ok true => some (some (.ok (addr, m.1)))
    | .ok false => none

/-- The runtime an answer gives. -/
def answered (r : Option (Except FindError (BitVec 64 × String))) : Option (BitVec 64 × String) :=
  r.bind Except.toOption

variable {d w pid} {m : String × BitVec 64}

/-- **A lookup panics at the images that claim an alignment of zero.** -/
theorem moduleSection_eq_none_iff : d.moduleSection m = none ↔ d.ZeroAligned m := by
  constructor
  · intro h
    rw [moduleSection] at h
    cases hfile : d.file m.1 with
    | none =>
      rw [hfile] at h
      cases h
    | some bytes =>
      rw [hfile] at h
      dsimp only at h
      have helf : ∃ elf, classify bytes = some .elf ∧ d.goblin.elf bytes = some elf := by
        by_contra hno
        have hsome : (d.goblin.sectionAddr bytes m.2).isSome = true :=
          (Goblin.lookups_of_not_elf fun elf hkind hparse => hno ⟨elf, hkind, hparse⟩).1
        rw [h] at hsome
        cases hsome
      obtain ⟨elf, hkind, hparse⟩ := helf
      simp only [Goblin.sectionAddr, hkind, Goblin.findSectionInElf, hparse] at h
      cases hsect : elf.sectionNamed [".PyRuntime", "PyRuntime"] with
      | none =>
        rw [hsect] at h
        cases h
      | some sect =>
        rw [hsect] at h
        have hbias := Option.map_eq_none_iff.mp h
        refine ⟨bytes, elf, hfile, hkind, hparse, by rw [hsect]; rfl, ?_⟩
        by_contra hzero
        have hsome := (isSome_elfLoadBias_iff elf).mpr hzero
        rw [hbias] at hsome
        cases hsome
  · rintro ⟨bytes, elf, hfile, hkind, hparse, hsect, hzero⟩
    obtain ⟨sect, hsect⟩ := Option.isSome_iff_exists.mp hsect
    have hbias : elfLoadBias elf = none := by
      rw [← Option.not_isSome_iff_eq_none, Bool.not_eq_true, ← Bool.not_eq_true,
        isSome_elfLoadBias_iff]
      exact not_not_intro hzero
    simp only [moduleSection, hfile, Goblin.sectionAddr, hkind, Goblin.findSectionInElf, hparse, hsect,
      hbias, Option.map_none]

theorem visit_answered (m : String × BitVec 64) :
    (d.visit w pid m).bind answered = d.valid w pid m := by
  rw [visit, valid]
  cases d.moduleSection m with
  | none => rfl
  | some section' =>
    cases section' with
    | none => rfl
    | some addr =>
      dsimp only
      rw [Machine.validateCookie]
      cases w.readMemory pid addr cookie.length with
      | none => rfl
      | some data =>
        by_cases hdata : data = cookie
        · simp [hdata, answered, Except.toOption]
        · have hne : (data == cookie) = false := beq_eq_false_iff_ne.mpr hdata
          simp [hne, hdata]

/-- A module ends the search without a runtime. -/
theorem visit_ends_iff : (∃ r, d.visit w pid m = some r ∧ answered r = none) ↔
    d.Unreadable w pid m ∨ d.ZeroAligned m := by
  rw [← moduleSection_eq_none_iff, visit, Unreadable]
  cases d.moduleSection m with
  | none => simp [answered]
  | some section' =>
    cases section' with
    | none => simp
    | some addr =>
      dsimp only
      rw [Machine.validateCookie]
      cases hread : w.readMemory pid addr cookie.length with
      | none => simp [answered, Except.toOption, hread]
      | some data =>
        by_cases hdata : data = cookie
        · simp [hdata, hread, answered, Except.toOption]
        · have hne : (data == cookie) = false := beq_eq_false_iff_ne.mpr hdata
          simp [hne, hread]

/-! ## The search -/

theorem tryModules_eq (modules : List (String × BitVec 64)) : d.tryModules w pid modules =
    (modules.findSome? (d.visit w pid)).getD (some (.error (.noSection pid))) := by
  induction modules with
  | nil => rfl
  | cons m rest ih =>
    obtain ⟨path, baseAddr⟩ := m
    rw [tryModules, List.findSome?_cons, visit, moduleSection, ih]
    cases d.file path with
    | none => rfl
    | some bytes =>
      dsimp only
      cases d.goblin.sectionAddr bytes baseAddr with
      | none => rfl
      | some section' =>
        cases section' with
        | none => rfl
        | some addr =>
          dsimp only
          cases w.validateCookie pid addr with
          | error e => rfl
          | ok same => cases same <;> rfl

theorem tryFindRuntime_of_modules {modules : List (String × BitVec 64)}
    (h : w.modules pid = .ok modules) (found : BitVec 64 × String) :
    d.tryFindRuntime w pid = some (.ok found) ↔
      answered ((modules.findSome? (d.visit w pid)).getD (some (.error (.noSection pid)))) =
        some found := by
  have hsearch : d.tryFindRuntime w pid = some (.ok found) ↔
      d.tryModules w pid modules = some (.ok found) := by
    rw [tryFindRuntime, h]
    cases modules with
    | nil => simp [tryModules]
    | cons m rest => rfl
  rw [hsearch, tryModules_eq]
  cases (modules.findSome? (d.visit w pid)).getD (some (.error (.noSection pid))) with
  | none => simp [answered]
  | some r => cases r <;> simp [answered, Except.toOption]

/-- A module that ends the search stands before the first valid one. -/
def Blocked (d : Disk) (w : Machine) (pid : Pid) (modules : List (String × BitVec 64)) : Prop :=
  ∃ before m after, modules = before ++ m :: after ∧ (∀ x ∈ before, d.valid w pid x = none) ∧
    (d.Unreadable w pid m ∨ d.ZeroAligned m) ∧ ∃ x ∈ after, ∃ found, d.valid w pid x = some found

/-- The files, as the machine sees them. -/
def machine (d : Disk) (w : Machine) : Machine :=
  { w with runtimeSection := fun path baseAddr => (d.moduleSection (path, baseAddr)).join }

/-- **Where no lookup panics, the search is the one of the machine.** -/
theorem tryFindRuntime_eq {modules : List (String × BitVec 64)} (h : w.modules pid = .ok modules)
    (haligned : ∀ m ∈ modules, ¬d.ZeroAligned m) :
    d.tryFindRuntime w pid = some ((d.machine w).tryFindRuntime pid) := by
  have hmodules : d.tryModules w pid modules = some ((d.machine w).tryModules pid modules) := by
    clear h
    induction modules with
    | nil => rfl
    | cons m rest ih =>
      obtain ⟨hm, hrest⟩ := List.forall_mem_cons.mp haligned
      have hsect := mt moduleSection_eq_none_iff.mp hm
      obtain ⟨path, baseAddr⟩ := m
      have hsection : (d.machine w).runtimeSection path baseAddr =
        (d.moduleSection (path, baseAddr)).join := rfl
      rw [tryModules, Machine.tryModules, ih hrest, hsection]
      rw [moduleSection] at hsect ⊢
      dsimp only at hsect ⊢
      cases hfile : d.file path with
      | none => rfl
      | some bytes =>
        rw [hfile] at hsect
        dsimp only at hsect ⊢
        cases haddr : d.goblin.sectionAddr bytes baseAddr with
        | none => exact absurd haddr hsect
        | some section' =>
          cases section' with
          | none => rfl
          | some addr =>
            have hcookie : (d.machine w).validateCookie pid addr = w.validateCookie pid addr := rfl
            dsimp only [Option.join_some]
            rw [hcookie]
            cases w.validateCookie pid addr with
            | error e => rfl
            | ok same => cases same <;> rfl
  have hmodules' : (d.machine w).modules pid = .ok modules := h
  rw [tryFindRuntime, h, Machine.tryFindRuntime, hmodules']
  cases modules with
  | nil => rfl
  | cons m rest => exact hmodules

/-- **The search answers with the first valid module unless an earlier one ends it**: by a section the
process cannot be read at, or by an alignment of zero. -/
theorem tryFindRuntime_finds_iff {modules : List (String × BitVec 64)}
    (h : w.modules pid = .ok modules) :
    (∀ found, d.tryFindRuntime w pid = some (.ok found) ↔
      modules.findSome? (d.valid w pid) = some found) ↔ ¬d.Blocked w pid modules := by
  have hvisit : (fun m => (d.visit w pid m).bind answered) = d.valid w pid := funext visit_answered
  have hblocked : EndsEarly (d.visit w pid) answered modules ↔ d.Blocked w pid modules := by
    simp only [EndsEarly, Blocked, visit_answered, visit_ends_iff]
  have hmissing : answered (some (.error (.noSection pid))) = none := rfl
  rw [← hblocked, ← search_finds_iff hmissing modules, hvisit]
  exact forall_congr' fun found => by rw [tryFindRuntime_of_modules h]

/-! ## A module whose section is not mapped -/

/-- An ELF image: a header, one loadable segment, the names, and the sections `.PyRuntime` at 0x4000
and `.shstrtab`. -/
def runtimeElf : List UInt8 :=
  wordsBytes [0x00010102464C457F, 0, 0x00000001003E0003, 0, 64, 144, 0x0038004000000000,
      0x0002000300400001] ++
    wordsBytes [0x0000000500000001, 0, 0, 0, 336, 336, 0x1000] ++
    wordsBytes [0x746E755279502E00, 0x7368732E00656D69, 0x0000006261747274] ++
    List.replicate 64 0 ++
    wordsBytes [0x0000000100000001, 2, 0x4000, 0, 8, 0, 1, 0] ++
    wordsBytes [0x000000030000000C, 0, 0, 120, 22, 0, 1, 0]

def runtimeParsed : Elf where
  programHeaders := [{ pType := 1, pVaddr := 0, pAlign := 0x1000 }]
  sectionHeaders := [⟨0, 0, 0, 0⟩, ⟨1, 0x4000, 0, 8⟩, ⟨12, 0, 120, 22⟩]
  shdrStrtab := fun n => if n = 0 then some "" else if n = 1 then some ".PyRuntime"
    else if n = 12 then some ".shstrtab" else none
  dynsyms := []
  dynstrtab := fun _ => none
  syms := []
  strtab := fun _ => none

/-- Every file is the one image. -/
def runtimeDisk : Disk where
  goblin := { bareGoblin with elf := fun bytes => if bytes = runtimeElf then some runtimeParsed else none }
  file := fun _ => some runtimeElf

/-- Process 1 maps the head of one copy as data and runs another one; process 2 runs its only copy. -/
def twoCopies : Machine where
  children _ := []
  modules pid := .ok ((if pid = 1 then [("/opt/libpython3.13.so", 0x1000)] else []) ++
    [("/usr/lib/libpython3.13.so", 0x200000)])
  runtimeSection _ baseAddr := some (baseAddr + 0x4000)
  memory _ := some
    { read := fun addr size => if addr = 0x204000 ∧ size = 8 then some cookie else none
      length_of_read := fun addr size bs h => by
        split_ifs at h with hat
        rw [← Option.some.inj h, hat.2]
        rfl }
  version _ := .ok ⟨3, 13, 0, 0xF, 0⟩
  legacyRuntime _ := .error ""
  legacyTable _ := none
  exeKey _ := none
  cmdline _ := none

theorem moduleSection_runtimeDisk (path : String) (baseAddr : BitVec 64) :
    runtimeDisk.moduleSection (path, baseAddr) = some (some (baseAddr + 0x4000)) := by
  have hkind : classify runtimeElf = some .elf := by decide +kernel
  have hparse : runtimeDisk.goblin.elf runtimeElf = some runtimeParsed := by
    simp [runtimeDisk]
  have hbias : elfLoadBias runtimeParsed = some (some 0) := by decide
  have hsect : runtimeParsed.sectionNamed [".PyRuntime", "PyRuntime"] = some ⟨1, 0x4000, 0, 8⟩ := rfl
  have hfound : runtimeDisk.goblin.sectionAddr runtimeElf baseAddr = _ :=
    Goblin.sectionAddr_elf hkind hparse hbias
  rw [hsect] at hfound
  exact hfound

/-- The only copy of process 2 is found. -/
theorem finds_only_copy : runtimeDisk.tryFindRuntime twoCopies 2 =
    some (.ok (0x204000, "/usr/lib/libpython3.13.so")) := by
  have hmodules : twoCopies.modules 2 = .ok [("/usr/lib/libpython3.13.so", 0x200000)] := rfl
  refine ((tryFindRuntime_finds_iff hmodules).mpr ?_ _).mpr ?_
  · rintro ⟨before, m, after, hl, -, -, x, hx, -⟩
    have hlen := congrArg List.length hl
    have hafter := List.length_pos_of_mem hx
    simp only [List.length_append, List.length_cons, List.length_nil] at hlen
    omega
  · rw [List.findSome?_cons, valid, moduleSection_runtimeDisk]
    rfl

/-- **The copy mapped as data ends the search of process 1 before the one it runs.** -/
theorem unreadable_cookie_ends :
    runtimeDisk.tryFindRuntime twoCopies 1 = some (.error (.cookie 1 0x5000)) ∧
      runtimeDisk.valid twoCopies 1 ("/usr/lib/libpython3.13.so", 0x200000) =
        some (0x204000, "/usr/lib/libpython3.13.so") := by
  have hmodules : runtimeDisk.tryFindRuntime twoCopies 1 = runtimeDisk.tryModules twoCopies 1
    [("/opt/libpython3.13.so", 0x1000), ("/usr/lib/libpython3.13.so", 0x200000)] := rfl
  constructor
  · rw [hmodules, tryModules_eq, List.findSome?_cons, visit, moduleSection_runtimeDisk]
    rfl
  · rw [valid, moduleSection_runtimeDisk]
    rfl

end Disk

end GcScope
