import Cyanurus.Fs.Inode

/-!
# Dentries

`src/kernel/dentry.c`: the cache of directory entries over the inodes of a volume. A dentry
is an object of a store. It has the name and the inode of the entry it was made for, and the
dentries of a directory's own entries are its children, the one that was added last in front.
The children are read from disk once, when the dentry is first looked at; after that they are
changed by hand, next to the directory on disk.

Strings are lists of bytes without their terminating zero. `name[NAME_MAX]` of a dentry need
not be terminated, so a name of 60 bytes is stored, but the copy that `write_child` makes of
it ends one byte behind the entry (`Halt.fault`).
-/

namespace Cyanurus

/-! ## Strings and paths -/

/-- The bytes of a string before its terminating zero. -/
abbrev CString := List UInt8

def nameMax : Nat := 60
def pathMax : Nat := 1024

/-- `DIRENT_SIZE` -/
def direntSize : Nat := 64

/-- The character `/`. -/
def slash : UInt8 := 47

/-- The name of a directory in itself. -/
def dot : CString := [46]

/-- The name of its parent. -/
def dotdot : CString := [46, 46]

/-- `!strncmp(a, b, NAME_MAX)` -/
def sameName (a b : CString) : Bool := a.take nameMax == b.take nameMax

/-- What stands between the slashes. -/
def splitSlash : List UInt8 → List CString
  | [] => [[]]
  | c :: cs =>
    if c = slash then [] :: splitSlash cs
    else
      match splitSlash cs with
      | [] => [[c]]
      | name :: names => (c :: name) :: names

/-- `dirname` of `lib/libgen.c` -/
def dirname (path : CString) : CString :=
  if path = [] then dot
  else
    match path.reverse.dropWhile (· == slash) with
    | [] => [slash]
    | last =>
      match last.dropWhile (· != slash) with
      | [] => dot
      | dir =>
        match dir.dropWhile (· == slash) with
        | [] => [slash]
        | dir => dir.reverse

/-- `basename` of `lib/libgen.c` -/
def basename (path : CString) : CString :=
  if path = [] then dot
  else
    match path.reverse.dropWhile (· == slash) with
    | [] => [slash]
    | last => (last.takeWhile (· != slash)).reverse

/-! ## Directory entries -/

/-- `d_ino` of the entry at `a`. -/
def dIno (m : Bytes) (a : Nat) : Nat := m.load 4 a

/-- `d_name` of the entry at `a`, as a string. -/
def dName (m : Bytes) (a : Nat) : CString :=
  ((List.range nameMax).map fun i => m (a + 4 + i)).takeWhile (· != 0)

/-- The bytes of an entry. -/
def direntBytes (ino : Nat) (name : CString) : Bytes := fun x =>
  if x < 4 then UInt8.ofNat (ino / 256 ^ x) else (name[x - 4]?).getD 0

/-- `S_ISDIR`, which tests a single bit. -/
def isDir (mode : Nat) : Bool := mode &&& 0o40000 != 0

/-! ## The cache -/

/-- `struct dentry`; `loaded` is `DF_FLAGS_LOAD`. -/
structure Dentry where
  name : CString
  loaded : Bool
  nentries : Nat
  inode : Nat
  parent : Nat
  children : List Nat
deriving DecidableEq, Repr

/-- The volume with its cache; `root` is `root_dentry`. -/
structure Fs where
  vol : Volume
  dentries : Store Dentry
  root : Nat

namespace Fs

/-- Change a field of a dentry. -/
def update (s : Fs) (d : Nat) (f : Dentry → Dentry) : Fs :=
  { s with dentries := s.dentries.modify d f }

/-- `alloc_dentry` -/
def allocDentry (s : Fs) (parent : Option Nat) (inode : Nat) (name : CString) : Nat × Fs :=
  (s.dentries.next,
    { s with
      dentries := s.dentries.alloc
        ⟨name.take nameMax, false, 0, inode, parent.getD s.dentries.next, []⟩ })

/-! ### Reading a directory -/

/-- The entry at `a` of a block of the directory `d` gets a dentry, unless it is not in use. -/
def readEntry (d : Nat) (dirents : Bytes) (r : List Nat × Fs) (a : Nat) : List Nat × Fs :=
  if dIno dirents a = 0 then r
  else
    let (children, s) := r
    let (p, vol) := inodeGet s.vol (dIno dirents a)
    let (c, s) := { s with vol }.allocDentry (some d) p (dName dirents a)
    (c :: children, s)

/-- The offsets of the entries in `rs` bytes. -/
def direntOffsets (rs : Nat) : List Nat := (List.range (rs / direntSize)).map (· * direntSize)

/-- The loop of `read_children` from `offset` on; `false` is the jump to `fail`. -/
def readBlocks (d inode : Nat) : Nat → Fs → Nat → List Nat → Except Halt (Bool × List Nat × Fs)
  | 0, _, _, _ => .error .stuck
  | fuel + 1, s, offset, children => do
      let (rs, dirents) ← inodeRead s.vol inode blockSize offset fun _ => 0
      if rs < 0 ∨ rs.toNat % direntSize ≠ 0 then .ok (false, children, s)
      else if rs = 0 then .ok (true, children, s)
      else
        let (children, s) := (direntOffsets rs.toNat).foldl (readEntry d dirents) (children, s)
        readBlocks d inode fuel s ((offset + rs.toNat) % 2 ^ 32) children

/-- `read_children`; none of its callers looks at the result. -/
def readChildren (s : Fs) (d : Nat) : Except Halt Fs :=
  match s.dentries.get d with
  | none => .error .fault
  | some D =>
    if D.loaded then .ok s
    else
      match s.vol.inodes.get D.inode with
      | none => .error .fault
      | some inode =>
        if !isDir inode.mode then .ok (s.update d fun D => { D with loaded := true })
        else do
          let (ok, children, s) ← readBlocks d D.inode fileRounds s 0 []
          if ok then
            .ok (s.update d fun D =>
              { D with
                nentries := (D.nentries + children.length) % 2 ^ 32
                children := children ++ D.children
                loaded := true })
          else .ok { s with dentries := children.foldl Store.free s.dentries }

/-! ### Looking up a path -/

/-- The first child with this name. -/
def findChild (s : Fs) (d : Nat) (name : CString) : Option Nat :=
  (s.dentries.get d).bind fun D =>
    D.children.find? fun c => (s.dentries.get c).any fun C => sameName C.name name

/-- The loop of `lookup_dentry`: one round for each slash, with what follows it. -/
def lookupLoop : List CString → Fs → Nat → Except Halt (Option Nat × Fs)
  | [], s, d => do
      let s ← s.readChildren d
      .ok (some d, s)
  | name :: names, s, d => do
      let s ← s.readChildren d
      if name = [] then lookupLoop names s d
      else if name.length > nameMax then .ok (none, s)
      else
        match s.findChild d name with
        | none => .ok (none, s)
        | some c => lookupLoop names s c

def lookupDentry (s : Fs) (path : CString) : Except Halt (Option Nat × Fs) :=
  match path with
  | [] => .ok (none, s)
  | c :: rest => if c = slash then lookupLoop (splitSlash rest) s s.root else .ok (none, s)

def dentryLookup (s : Fs) (path : CString) : Except Halt (Option Nat × Fs) :=
  if path.length ≥ pathMax then .ok (none, s) else s.lookupDentry path

/-! ### Changing a directory -/

/-- `write_child`, whose result is ignored. -/
def writeChild (s : Fs) (c : Nat) : Except Halt Fs :=
  match s.dentries.get c with
  | none => .error .fault
  | some C =>
    match (s.dentries.get C.parent).bind fun P => (s.vol.inodes.get P.inode).map (P.inode, ·),
      s.vol.inodes.get C.inode with
    | some (p, dir), some inode =>
      if C.name.length ≥ nameMax then .error .fault
      else do
        let (_, vol) ← inodeWrite s.vol p direntSize dir.size (direntBytes inode.index C.name)
        .ok { s with vol }
    | _, _ => .error .fault

/-- The loop of `remove_child` from `offset` on. -/
def removeBlocks (inode : Nat) (name : CString) :
    Nat → Volume → Nat → Except Halt (Bool × Volume)
  | 0, _, _ => .error .stuck
  | fuel + 1, vol, offset => do
      let (rs, dirents) ← inodeRead vol inode blockSize offset fun _ => 0
      if rs ≤ 0 ∨ rs.toNat % direntSize ≠ 0 then .ok (false, vol)
      else
        match (direntOffsets rs.toNat).find? fun a =>
          dIno dirents a != 0 && sameName (dName dirents a) name with
        | some a => do
            let dirents := dirents.store 4 a 0
            let (r, vol) ← inodeWrite vol inode direntSize ((offset + a) % 2 ^ 32) fun x =>
              dirents (a + x)
            .ok (r == direntSize, vol)
        | none => removeBlocks inode name fuel vol ((offset + rs.toNat) % 2 ^ 32)

/-- `remove_child`; `false` is -1. -/
def removeChild (s : Fs) (d : Nat) (name : CString) : Except Halt (Bool × Fs) :=
  match s.dentries.get d with
  | none => .error .fault
  | some D => do
      let (ok, vol) ← removeBlocks D.inode name fileRounds s.vol 0
      .ok (ok, { s with vol })

/-- A change of the number of links, in memory and on disk. -/
def setNlinks (s : Fs) (p : Nat) (f : Nat → Nat) : Except Halt Fs := do
  let vol ← inodeSet { s.vol with
    inodes := s.vol.inodes.modify p fun i => { i with nlinks := f i.nlinks } } p
  .ok { s with vol }

/-- `create_dentry`: an entry of the directory `d` for the inode `p`. -/
def createDentry (s : Fs) (d : Nat) (name : CString) (p : Nat) : Except Halt (Int × Fs) :=
  if name.length > nameMax then .ok (-1, s)
  else do
    let s ← s.readChildren d
    if (s.findChild d name).isSome then .ok (-1, s)
    else
      let (c, s) := s.allocDentry (some d) p name
      let s := s.update d fun D => { D with children := c :: D.children }
      let s ← s.writeChild c
      let s := s.update d fun D => { D with nentries := (D.nentries + 1) % 2 ^ 32 }
      let s ← s.setNlinks p fun n => (n + 1) % 2 ^ 32
      .ok (0, s)

/-- `destroy_dentry`. The links of the root dentry to siblings are null. -/
def destroyDentry (s : Fs) (d : Nat) : Except Halt (Int × Fs) :=
  match s.dentries.get d with
  | none => .error .fault
  | some D => do
      let (ok, s) ← s.removeChild D.parent D.name
      if !ok then .ok (-1, s)
      else
        let s := s.update D.parent fun P => { P with nentries := (P.nentries + 2 ^ 32 - 1) % 2 ^ 32 }
        let s ← s.setNlinks D.inode fun n => (n + 2 ^ 32 - 1) % 2 ^ 32
        if D.parent = d then .error .fault
        else
          let s := s.update D.parent fun P => { P with children := P.children.erase d }
          .ok (0, { s with dentries := s.dentries.free d })

/-- `dentry_init` on a volume whose inodes are not in memory. -/
def mount (vol : Volume) : Fs :=
  let (p, vol) := inodeGet vol 1
  ({ vol, dentries := .empty, root := 0 : Fs }.allocDentry none p []).2

end Fs

end Cyanurus
