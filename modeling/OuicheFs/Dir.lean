import OuicheFs.Inode

/-!
# dir.c: listing a directory

`ouichefs_iterate` hands the entries of a directory to `dir_emit`, which refuses
once the buffer of the caller is full. `ctx->pos` counts what has been handed
over, dots included; the next call goes on from there.
-/
namespace OuicheDir

open ByteBuffer FileContext OuicheInode

def errNotdir : Int := 20

/-- A slot of a directory block: `struct ouichefs_file`. -/
structure DirFile where
  inode : Nat
  filename : List Byte
  deriving DecidableEq

/-- `dblock->files[i]` -/
def dirFile (dblock : Buffer) (i : Nat) : DirFile :=
  ⟨fileInode dblock i, slice dblock (32 * i + 4) filenameLen⟩

/-- What `dir_emit` is called with. -/
inductive Dirent where
  | dot
  | dotDot
  | file (f : DirFile)
  deriving DecidableEq

/-- The state of the listing after a call: the position, what has been handed
over, and whether the call has gone on until `dir_emit` was not needed any more. -/
structure IterateResult where
  pos : Nat
  emitted : List Dirent
  ended : Bool
  ret : Int
  deriving DecidableEq

/-- `dir_emit_dots` of the kernel: the position, the dots handed over and whether
there was room for them. -/
def dirEmitDots (pos room : Nat) : Nat × List Dirent × Bool :=
  if pos = 0 then
    if room = 0 then (0, [], false)
    else if room = 1 then (1, [.dot], false)
    else (2, [.dot, .dotDot], true)
  else if pos = 1 then
    if room = 0 then (1, [], false) else (2, [.dotDot], true)
  else (pos, [], true)

/-- The loop over the slots; the first argument counts the slots left, `room`
the calls of `dir_emit` that will succeed. -/
def iterateLoop (dblock : Buffer) : Nat → Nat → Nat → List Dirent × Bool
  | 0, _, _ => ([], true)
  | n + 1, i, room =>
    if fileInode dblock i = 0 then ([], true) else
    if room = 0 then ([], false) else
    let r := iterateLoop dblock n (i + 1) (room - 1)
    (.file (dirFile dblock i) :: r.1, r.2)

def ouichefsIterate (w : World) (io : Io) (dir pos room : Nat) : Option IterateResult :=
  (w.icache dir).map fun d =>
  if sIsdir d.iMode = false then ⟨pos, [], false, -errNotdir⟩ else
  if pos > maxSubfiles + 2 then ⟨pos, [], true, 0⟩ else
  let dots := dirEmitDots pos room
  if dots.2.2 = false then ⟨dots.1, dots.2.1, false, 0⟩ else
  if io.bread 0 = false then ⟨dots.1, dots.2.1, false, -errIo⟩ else
  let r := iterateLoop (w.disk d.indexBlock) (maxSubfiles - (dots.1 - 2)) (dots.1 - 2)
    (room - dots.2.1.length)
  ⟨dots.1 + r.1.length, dots.2.1 ++ r.1, r.2, 0⟩

end OuicheDir
