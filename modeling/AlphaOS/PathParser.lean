import AlphaOS.CString
import AlphaOS.Kheap

/-! The path parser of `fs/pparser.c`. A `path_root` is a drive number and a pointer to the
first part, a `path_part` a pointer to its text and one to the next part. Loops over the
path have a bound and give nothing when it is reached. -/
namespace AlphaOS.PathParser
open CString Kheap WordMemory

/-- `'/'`. -/
abbrev slash : Byte := 47

def pathparserPathValidFormat (mem : Mem) (filename : Word) : Bool :=
  let len := strnlen mem filename maxPathLength
  len ≥ 3 ∧ isdigit (mem filename) ∧ memcmp (pointer mem (filename + 1)) (literal [58, slash]) 2 = 0

/-- The drive number, or the error, and the path behind it. -/
def pathparserGetDriveByPath (mem : Mem) (path : Word) : ℤ × Word :=
  if ¬ pathparserPathValidFormat mem path then (-ebadpath, path) else
  (tonumericdigit (mem path), path + 3)

def pathparserCreateRoot (s : Kmem) (driveNumber : ℤ) : Word × Kmem :=
  let pathR := kzalloc s 8
  let mem := write32 pathR.2.mem pathR.1 (BitVec.ofInt 32 driveNumber)
  (pathR.1, pathR.2.withMem (write32 mem (pathR.1 + 4) 0))

/-- The loop that copies one part: where the path stands, how many characters were copied
and the memory. -/
def copyPartLoop (resultPathPart : Word) : ℕ → Word → ℕ → Mem → Option (Word × ℕ × Mem)
  | 0, _, _, _ => none
  | fuel + 1, path, i, mem =>
    if mem path ≠ slash ∧ mem path ≠ 0 then
      copyPartLoop resultPathPart fuel (path + 1) (i + 1)
        (Function.update mem (resultPathPart + BitVec.ofNat 32 i) (mem path))
    else some (path, i, mem)

/-- The text of the next part, null for an empty one, and the path behind it. -/
def pathparserGetPathPart (fuel : ℕ) (s : Kmem) (path : Word) : Option (Word × Word × Kmem) :=
  let part := kzalloc s 108
  (copyPartLoop part.1 fuel path 0 part.2.mem).map fun r =>
    let s := part.2.withMem r.2.2
    let path := if s.mem r.1 = slash then r.1 + 1 else r.1
    if r.2.1 = 0 then (0, path, kfree s part.1) else (part.1, path, s)

def pathparserParsePathPart (fuel : ℕ) (s : Kmem) (lastPart path : Word) :
    Option (Word × Word × Kmem) :=
  (pathparserGetPathPart fuel s path).map fun r =>
    if r.1 = 0 then (0, r.2.1, r.2.2) else
    let part := kzalloc r.2.2 8
    let mem := write32 (write32 part.2.mem part.1 r.1) (part.1 + 4) 0
    let mem := if lastPart ≠ 0 then write32 mem (lastPart + 4) part.1 else mem
    (part.1, r.2.1, part.2.withMem mem)

/-- The loop over the parts behind `part`. -/
def parsePartsLoop : ℕ → Kmem → Word → Word → Option Kmem
  | 0, _, _, _ => none
  | fuel + 1, s, part, path =>
    if part = 0 then some s else
    (pathparserParsePathPart fuel s part path).bind fun r => parsePartsLoop fuel r.2.2 r.1 r.2.1

def pathparserParse (fuel : ℕ) (s : Kmem) (path : Word) : Option (Word × Kmem) :=
  (strlen fuel s.mem path).bind fun len =>
    if len > maxPathLength then some (0, s) else
    let res := pathparserGetDriveByPath s.mem path
    if res.1 < 0 then some (0, s) else
    let root := pathparserCreateRoot s res.1
    if root.1 = 0 then some (0, root.2) else
    (pathparserParsePathPart fuel root.2 0 res.2).bind fun first =>
      if first.1 = 0 then some (root.1, first.2.2) else
      let s := first.2.2.withMem (write32 first.2.2.mem (root.1 + 4) first.1)
      (pathparserParsePathPart fuel s first.1 first.2.1).bind fun part =>
        (parsePartsLoop fuel part.2.2 part.1 part.2.1).map fun s => (root.1, s)

end AlphaOS.PathParser
