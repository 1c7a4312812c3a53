import GcScope.Lib.Guarded
import GcScope.Lib.LittleEndian
import GcScope.RemoteDebugging.VersionScan

/-!
# Looking into a module image

The image of a Python module is inspected for its runtime section, for a symbol and for the version
literal in its read-only data. Third-party parsers take it apart; what they hand back may hold any
value in any field.

* `Goblin`: the parsers, with `Elf`, `Pe` and `MachO`, what they hand back.
* `elfLoadBias`, `parseMacho`: what the lookups share.
* `Goblin.sectionAddr`, `Goblin.resolveSymbolInBytes`, `Goblin.scanImageForVersion`: the lookups, in a
  build that stops at a failing operation.
-/

set_option autoImplicit false

namespace GcScope

open LittleEndian MachineInt

/-! ## Parsed images -/

inductive BinaryKind where
  | elf
  | pe
  | machO
  deriving DecidableEq

/-- The format of an image, by its first four bytes. -/
def classify (bytes : List UInt8) : Option BinaryKind :=
  if bytes.length < 4 then none
  else
    let magic := value (bytes.take 4)
    if magic = 0x464c457f then some .elf
    else if magic = 0x00905a4d ∨ magic = 0x905a4d00 then some .pe
    else if magic = 0xfeedface ∨ magic = 0xcefaedfe ∨ magic = 0xfeedfacf ∨ magic = 0xcffaedfe ∨
        magic = 0xbebafeca ∨ magic = 0xcafebabe then some .machO
    else none

structure ProgramHeader where
  pType : BitVec 32
  pVaddr : BitVec 64
  pAlign : BitVec 64

structure SectionHeader where
  shName : ℕ
  shAddr : BitVec 64
  shOffset : BitVec 64
  shSize : BitVec 64

structure Sym where
  stName : ℕ
  stValue : BitVec 64

/-- A parsed ELF image; the string tables answer for the names they have. -/
structure Elf where
  programHeaders : List ProgramHeader
  sectionHeaders : List SectionHeader
  shdrStrtab : ℕ → Option String
  dynsyms : List Sym
  dynstrtab : ℕ → Option String
  syms : List Sym
  strtab : ℕ → Option String

/-- A section of a PE image; a name may be unreadable. -/
structure PeSection where
  name : Option String
  virtualAddress : BitVec 32
  pointerToRawData : BitVec 32
  sizeOfRawData : BitVec 32

structure Export where
  name : Option String
  rva : BitVec 64

structure Pe where
  sections : List PeSection
  exports : List Export

structure MachSection where
  name : Option String
  addr : BitVec 64
  offset : BitVec 32
  size : BitVec 64

structure Segment where
  name : Option String
  vmaddr : BitVec 64
  sections : Option (List MachSection)

structure Nlist where
  nValue : BitVec 64
  isUndefined : Bool

/-- A parsed Mach-O image; the symbols that cannot be read are left out by the callers. -/
structure MachO where
  segments : List Segment
  symbols : Option (List (Option (String × Nlist)))

/-- The place of one architecture in a universal image. -/
structure FatArch where
  cputype : BitVec 32
  offset : BitVec 32
  size : BitVec 32

/-- A universal image: how many architectures it claims, and what reading each yields. -/
structure MultiArch where
  narches : ℕ
  arches : List (Option FatArch)

inductive Mach where
  | binary (macho : MachO)
  | fat (fat : MultiArch)

/-- How a Mach-O header is to be read. -/
structure MachCtx where
  isLittle : Bool
  isBig : Bool

inductive CommandVariant where
  | segment32 (segname : Vector UInt8 16) (vmaddr fileoff : BitVec 32)
  | segment64 (segname : Vector UInt8 16) (vmaddr fileoff : BitVec 64)
  | main (entryoff : BitVec 64)
  | other

/-- The parsers, and the architecture of the host. -/
structure Goblin where
  elf : List UInt8 → Option Elf
  pe : List UInt8 → Option Pe
  mach : List UInt8 → Option Mach
  /-- A thin image, as it stands in a slice. -/
  machO : List UInt8 → Option MachO
  magicAndCtx : List UInt8 → Option MachCtx
  /-- The load command at an offset, and the offset behind it. -/
  loadCommand : List UInt8 → ℕ → Bool → Option (CommandVariant × ℕ)
  hostCputype : BitVec 32

/-- The name without NULs behind it. -/
def trimEndNul (name : String) : String :=
  String.ofList (name.toList.reverse.dropWhile fun c => c == '\x00').reverse

/-! ## ELF -/

def ptLoad : BitVec 32 := 1

/-- The first loadable segment. -/
def Elf.firstLoad (elf : Elf) : Option ProgramHeader :=
  elf.programHeaders.find? fun ph => ph.pType == ptLoad

/-- The address of the first loadable segment, down to its alignment. -/
def elfLoadBias (elf : Elf) : Option (Option (BitVec 64)) :=
  match elf.firstLoad with
  | none => some none
  | some ph => do
    let below ← checkedRem ph.pVaddr ph.pAlign
    let bias ← checkedSub ph.pVaddr below
    return some bias

/-- The first section with one of the names. -/
def Elf.sectionNamed (elf : Elf) (names : List String) : Option SectionHeader :=
  elf.sectionHeaders.find? fun s =>
    match elf.shdrStrtab s.shName with
    | some name => names.contains (trimEndNul name)
    | none => false

/-- The symbol of a name, the dynamic ones first. -/
def Elf.symbolNamed (elf : Elf) (name : String) : Option Sym :=
  (elf.dynsyms.find? fun s => elf.dynstrtab s.stName == some name).or
    (elf.syms.find? fun s => elf.strtab s.stName == some name)

/-! ## Mach-O -/

section MachO

/-- The header word at an offset. -/
def headerWord (bytes : List UInt8) (isLittle : Bool) (offset : ℕ) : Option (BitVec 32) :=
  let raw := (bytes.drop offset).take 4
  if raw.length = 4 then some (.ofNat 32 (value (if isLittle then raw else raw.reverse))) else none

/-- `__TEXT` and a NUL. -/
def textSegname : List UInt8 := [0x5F, 0x5F, 0x54, 0x45, 0x58, 0x54, 0]

/-- The segment of a load command: its name, address and file offset. -/
def CommandVariant.segment? : CommandVariant → Option (Vector UInt8 16 × BitVec 64 × BitVec 64)
  | segment32 segname vmaddr fileoff => some (segname, vmaddr.setWidth 64, fileoff.setWidth 64)
  | segment64 segname vmaddr fileoff => some (segname, vmaddr, fileoff)
  | main _ => none
  | other => none

def CommandVariant.entryoff? : CommandVariant → Option (BitVec 64)
  | main entryoff => some entryoff
  | _ => none

variable (G : Goblin)

/-- The first `__TEXT` segment and the first entry point of the next `left` commands, or nothing where
one of them cannot be read. -/
def walkCommands (bytes : List UInt8) (isLittle : Bool) :
    ℕ → ℕ → Option (BitVec 64 × BitVec 64) → Option (BitVec 64) →
      Option (Option (BitVec 64 × BitVec 64) × Option (BitVec 64))
  | 0, _, text, entryoff => some (text, entryoff)
  | left + 1, offset, text, entryoff =>
    match G.loadCommand bytes offset isLittle with
    | none => none
    | some (cmd, offset) =>
      let text := text.or <| cmd.segment?.bind fun seg =>
        if seg.1.toList.take 7 = textSegname then some seg.2 else none
      walkCommands bytes isLittle left offset text (entryoff.or cmd.entryoff?)

/-- The parser may be handed the image: its own arithmetic on the entry point stays in range. -/
def machoEntryPointMathIsSafe (bytes : List UInt8) : Bool :=
  match G.magicAndCtx bytes with
  | none => true
  | some ctx =>
    match headerWord bytes ctx.isLittle 16, headerWord bytes ctx.isLittle 20 with
    | some ncmds, some sizeofcmds =>
      if sizeofcmds.toNat / 8 < ncmds.toNat ∨ bytes.length < sizeofcmds.toNat then true
      else
        match walkCommands G bytes ctx.isLittle ncmds.toNat (if ctx.isBig then 32 else 28) none none with
        | some (some (vmaddr, fileoff), some entryoff) =>
          ((checkedSub vmaddr fileoff).bind fun base => checkedAdd base entryoff).isSome
        | _ => true
    | _, _ => true

/-- The slice of the host's architecture. An entry that cannot be read ends the table. -/
def fatSlice (bytes : List UInt8) : List (Option FatArch) → Option (MachO × BitVec 64)
  | [] => none
  | none :: _ => none
  | some arch :: rest =>
    if arch.cputype ≠ G.hostCputype then fatSlice bytes rest
    else do
      let start := arch.offset.toNat
      let stop ← checkedU64 (start + arch.size.toNat)
      let slice ← sliceChecked bytes start stop
      if !machoEntryPointMathIsSafe G slice then none
      else (G.machO slice).map fun m => (m, arch.offset.setWidth 64)

/-- The image of the host's architecture, and where it starts. -/
def parseMacho (bytes : List UInt8) : Option (MachO × BitVec 64) :=
  if !machoEntryPointMathIsSafe G bytes then none
  else
    match G.mach bytes with
    | none => none
    | some (.binary macho) => some (macho, 0)
    | some (.fat fat) =>
      if bytes.length / 20 < fat.narches then none else fatSlice G bytes fat.arches

/-- The address of the runtime section among the sections of one segment. -/
def runtimeInSections (base : BitVec 64) (textVmaddr : Option (BitVec 64)) :
    List MachSection → Option (BitVec 64) → Option (Option (BitVec 64))
  | [], runtimeAddr => some runtimeAddr
  | sect :: rest, runtimeAddr => do
    let sectname ← sect.name
    if sectname = "PyRuntime" then
      let vmaddr ← textVmaddr
      runtimeInSections base textVmaddr rest (some (base + (sect.addr - vmaddr)))
    else runtimeInSections base textVmaddr rest runtimeAddr

/-- The address of the runtime section among the segments that may hold it. -/
def runtimeInSegments (base : BitVec 64) :
    List Segment → Option (BitVec 64) → Option (BitVec 64) → Option (BitVec 64)
  | [], _, runtimeAddr => runtimeAddr
  | segment :: rest, textVmaddr, runtimeAddr => do
    let segname ← segment.name
    let textVmaddr := if segname = "__TEXT" then some segment.vmaddr else textVmaddr
    if segname = "__DATA" ∨ segname = "__DATA_CONST" ∨ segname = "__AUTH_CONST" then
      let sections ← segment.sections
      let runtimeAddr ← runtimeInSections base textVmaddr sections runtimeAddr
      runtimeInSegments base rest textVmaddr runtimeAddr
    else runtimeInSegments base rest textVmaddr runtimeAddr

/-- The address of the first `__TEXT` segment with a readable name. -/
def MachO.textVmaddr (macho : MachO) : Option (BitVec 64) :=
  macho.segments.findSome? fun segment =>
    if segment.name = some "__TEXT" then some segment.vmaddr else none

/-- The defined symbol of a name, with or without the underscore of C. -/
def MachO.symbolNamed (macho : MachO) (name : String) : Option Nlist :=
  macho.symbols.bind fun symbols =>
    ((symbols.filterMap id).find? fun s =>
      (s.1 == name || s.1.toList == '_' :: name.toList) && !s.2.isUndefined).map Prod.snd

end MachO

namespace Goblin

variable (G : Goblin)

/-! ## The runtime section -/

def findSectionInElf (bytes : List UInt8) (regionStart : BitVec 64) :
    Option (Option (BitVec 64)) :=
  match G.elf bytes with
  | none => some none
  | some elf =>
    match elf.sectionNamed [".PyRuntime", "PyRuntime"] with
    | none => some none
    | some sect => (elfLoadBias elf).map fun bias =>
        bias.map fun loadBias => regionStart + (sect.shAddr - loadBias)

def findSectionInPe (bytes : List UInt8) (regionStart : BitVec 64) : Option (BitVec 64) := do
  let pe ← G.pe bytes
  let sect ← pe.sections.find? fun s =>
    match s.name with
    | some name => trimEndNul name == "PyRuntim" || trimEndNul name == "PyRuntime"
    | none => false
  return regionStart + sect.virtualAddress.setWidth 64

def findSectionInMacho (bytes : List UInt8) (regionStart : BitVec 64) : Option (BitVec 64) := do
  let (macho, _) ← parseMacho G bytes
  runtimeInSegments regionStart macho.segments none none

/-- The address of the runtime section of a module loaded at `regionStart`. -/
def sectionAddr (bytes : List UInt8) (regionStart : BitVec 64) : Option (Option (BitVec 64)) :=
  match classify bytes with
  | some .elf => G.findSectionInElf bytes regionStart
  | some .pe => some (G.findSectionInPe bytes regionStart)
  | some .machO => some (G.findSectionInMacho bytes regionStart)
  | none => some none

/-! ## Symbols -/

def resolveSymbolElf (bytes : List UInt8) (baseAddr : BitVec 64) (symName : String) :
    Option (Option (BitVec 64)) :=
  match G.elf bytes with
  | none => some none
  | some elf => (elfLoadBias elf).map fun bias => do
      let loadBias ← bias
      let sym ← elf.symbolNamed symName
      return baseAddr + (sym.stValue - loadBias)

def resolveSymbolPe (bytes : List UInt8) (baseAddr : BitVec 64) (symName : String) :
    Option (BitVec 64) := do
  let pe ← G.pe bytes
  let found ← pe.exports.find? fun e => e.name == some symName
  return baseAddr + found.rva

def resolveSymbolMacho (bytes : List UInt8) (baseAddr : BitVec 64) (symName : String) :
    Option (BitVec 64) := do
  let (macho, _) ← parseMacho G bytes
  let textVmaddr ← macho.textVmaddr
  let nlist ← macho.symbolNamed symName
  return baseAddr + (nlist.nValue - textVmaddr)

/-- The address of a symbol of a module loaded at `baseAddr`. -/
def resolveSymbolInBytes (bytes : List UInt8) (baseAddr : BitVec 64) (name : String) :
    Option (Option (BitVec 64)) :=
  match classify bytes with
  | some .elf => G.resolveSymbolElf bytes baseAddr name
  | some .pe => some (G.resolveSymbolPe bytes baseAddr name)
  | some .machO => some (G.resolveSymbolMacho bytes baseAddr name)
  | none => some none

/-! ## The version literal -/

/-- The `__cstring` section among the sections of the `__TEXT` segment, looked up until a name or a
segment cannot be read. -/
def cstringInSections : List MachSection → Option (Option MachSection)
  | [] => some none
  | sect :: rest => do
    let name ← sect.name
    if name = "__cstring" then some (some sect) else cstringInSections rest

def cstringInSegments : List Segment → Option MachSection
  | [] => none
  | segment :: rest => do
    let name ← segment.name
    if name ≠ "__TEXT" then cstringInSegments rest
    else
      let sections ← segment.sections
      match ← cstringInSections sections with
      | some sect => some sect
      | none => cstringInSegments rest

/-- Where the file has its read-only data: the offset and the size. -/
def roDataRange (bytes : List UInt8) : Option (Option (BitVec 64 × BitVec 64)) :=
  match classify bytes with
  | none => some none
  | some .pe => some <| do
      let pe ← G.pe bytes
      let s ← pe.sections.find? fun s => s.name.map trimEndNul == some ".rdata"
      return (s.pointerToRawData.setWidth 64, s.sizeOfRawData.setWidth 64)
  | some .elf => some <| do
      let elf ← G.elf bytes
      let s ← elf.sectionNamed [".rodata"]
      return (s.shOffset, s.shSize)
  | some .machO =>
    match (parseMacho G bytes).bind fun p => (cstringInSegments p.1.segments).map fun s => (s, p.2) with
    | none => some none
    | some (sect, sliceAt) => do
      let start ← checkedAdd sliceAt (sect.offset.setWidth 64)
      return some (start, sect.size)

/-- The read-only data of the image. -/
def readOnlyData (bytes : List UInt8) : Option (Option (List UInt8)) := do
  match ← G.roDataRange bytes with
  | none => return none
  | some (start, len) =>
    let stop := min (min (start.toNat + len.toNat) (2 ^ 64 - 1)) bytes.length
    if start.toNat < stop then (sliceChecked bytes start.toNat stop).map some else return none

end Goblin

/-- The index behind the run of version characters that starts at index `i`, where `rest` starts. -/
def runStop (bytes : List UInt8) (i : ℕ) (rest : List UInt8) : Option ℕ :=
  match rest.findIdx? fun b => !isVersionChar b with
  | none => some bytes.length
  | some n => checkedU64 (i + n)

/-- The version that starts at index `i`, where it ends with its run. -/
def candidateChecked (bytes : List UInt8) (i : ℕ) : Option (Option PythonVersion) := do
  let rest ← sliceChecked bytes i bytes.length
  let stop ← runStop bytes i rest
  let candidate ← sliceChecked bytes i stop
  match parseExact (asciiText candidate) with
  | none => return none
  | some v => return if isTerminator ((bytes[stop]?).getD 0) then some v else none

/-- The scan at index `i`, with `left` bytes from there on. -/
def scanLoop (bytes : List UInt8) : ℕ → ℕ → Option (Option PythonVersion)
  | 0, _ => some none
  | left + 1, i => do
    let next ← checkedU64 (i + 1)
    if bytes.length ≤ next then return none
    else if (← bytes[i]?) ≠ 0x33 then scanLoop bytes left next
    else if (← bytes[next]?) ≠ 0x2E then scanLoop bytes left next
    else if ← (if i = 0 then some false else bytes[i - 1]?.map isVersionChar) then
      scanLoop bytes left next
    else
      match ← candidateChecked bytes i with
      | some v => return some v
      | none => scanLoop bytes left next

/-- The scan for the version literal. -/
def scanForVersionStringChecked (bytes : List UInt8) : Option (Option PythonVersion) :=
  scanLoop bytes bytes.length 0

/-- The version literal of an image, looked for in its read-only data first. -/
def Goblin.scanImageForVersion (G : Goblin) (bytes : List UInt8) : Option (Option PythonVersion) := do
  match ← G.readOnlyData bytes with
  | none => scanForVersionStringChecked bytes
  | some ro =>
    match ← scanForVersionStringChecked ro with
    | some v => return some v
    | none => scanForVersionStringChecked bytes

end GcScope
