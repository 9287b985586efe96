import Cyanurus.Fs.Dentry

/-!
# Files and directories by path

`src/kernel/fs.c`: creating and removing files and directories. Each function looks its path
up in the cache of dentries and then changes inodes and directories step by step; what a
failed step has done already is not always taken back, and some results are ignored.
-/

namespace Cyanurus

def sIfreg : Nat := 0o100000
def sIfdir : Nat := 0o040000

def oExcl : Nat := 0o200

namespace Fs

def enoent : Int := -2
def eexist : Int := -17
def enotdir : Int := -20
def eisdir : Int := -21
def enametoolong : Int := -36
def enotempty : Int := -39

/-- The inode of a dentry. -/
def inodeOf (s : Fs) (d : Nat) : Option Inode :=
  (s.dentries.get d).bind fun D => s.vol.inodes.get D.inode

/-- `inode_destroy` -/
def destroyInode (s : Fs) (p : Nat) : Except Halt Fs := do
  let vol ← inodeDestroy s.vol p
  .ok { s with vol }

/-- `dentry_unlink` for each child in the list, whatever it returns. -/
def unlinkAll : List Nat → Fs → Except Halt Fs
  | [], s => .ok s
  | c :: cs, s => do
      let (_, s) ← s.destroyDentry c
      unlinkAll cs s

/-- `remove_dentry_and_children` -/
def removeDentryAndChildren (s : Fs) (d : Nat) : Except Halt Fs :=
  match s.dentries.get d with
  | none => .error .fault
  | some D => do
      let s ← unlinkAll D.children s
      let (_, s) ← s.destroyDentry d
      .ok s

/-- `fs_create` -/
def create (s : Fs) (path : CString) (flags mode : Nat) : Except Halt (Int × Fs) :=
  if path.length ≥ pathMax then .ok (enametoolong, s)
  else do
    let (found, s) ← s.dentryLookup path
    if found.isSome then .ok (if flags &&& oExcl != 0 then eexist else 0, s)
    else
      let (dir, s) ← s.dentryLookup (dirname path)
      match dir with
      | none => .ok (eexist, s)
      | some d =>
        match inodeCreate s.vol (mode &&& 0o777 ||| sIfreg) with
        | (none, vol) => .ok (enospc, { s with vol })
        | (some p, vol) => do
            let (r, s) ← { s with vol }.createDentry d (basename path) p
            if r < 0 then do
              let s ← s.destroyInode p
              .ok (r, s)
            else .ok (0, s)

/-- `fs_unlink` -/
def unlink (s : Fs) (path : CString) : Except Halt (Int × Fs) :=
  if path.length ≥ pathMax then .ok (enametoolong, s)
  else do
    let (found, s) ← s.dentryLookup path
    match found with
    | none => .ok (enoent, s)
    | some d =>
      match s.dentries.get d, s.inodeOf d with
      | some D, some inode =>
        if isDir inode.mode then .ok (eisdir, s)
        else do
          let (r, s) ← s.destroyDentry d
          if r < 0 then .ok (r, s)
          else
            match s.vol.inodes.get D.inode with
            | none => .error .fault
            | some inode =>
              if inode.nlinks = 0 then do
                let s ← s.destroyInode D.inode
                .ok (0, s)
              else .ok (0, s)
      | _, _ => .error .fault

/-- The end of `fs_mkdir` when a step has failed. -/
def mkdirFail (s : Fs) (dentry : Option Nat) (p : Nat) (errno : Int) : Except Halt (Int × Fs) := do
  let s ← match dentry with
    | none => .ok s
    | some d => s.removeDentryAndChildren d
  let s ← s.destroyInode p
  .ok (errno, s)

/-- `fs_mkdir` once the new inode `p` has been made: it is linked in the directory `dir`, and
then in itself. -/
def mkdirLink (s : Fs) (path : CString) (dir p : Nat) : Except Halt (Int × Fs) := do
  let (r, s) ← s.createDentry dir (basename path) p
  if r < 0 then s.mkdirFail none p r
  else
    let (found, s) ← s.dentryLookup path
    match found with
    | none => s.mkdirFail none p r
    | some d => do
        let (r, s) ← s.createDentry d dot p
        if r < 0 then s.mkdirFail (some d) p r
        else
          match (s.dentries.get d).bind fun D => s.dentries.get D.parent with
          | none => .error .fault
          | some P => do
              let (r, s) ← s.createDentry d dotdot P.inode
              if r < 0 then s.mkdirFail (some d) p r else .ok (0, s)

/-- `fs_mkdir` -/
def mkdir (s : Fs) (path : CString) (mode : Nat) : Except Halt (Int × Fs) :=
  if path.length ≥ pathMax then .ok (enametoolong, s)
  else do
    let (found, s) ← s.dentryLookup path
    if found.isSome then .ok (eexist, s)
    else
      let (dir, s) ← s.dentryLookup (dirname path)
      match dir with
      | none => .ok (enoent, s)
      | some d =>
        match inodeCreate s.vol (mode &&& 0o777 ||| sIfdir) with
        | (none, vol) => .ok (enospc, { s with vol })
        | (some p, vol) => mkdirLink { s with vol } path d p

/-- All children are the directory itself and its parent. -/
def onlyDots (s : Fs) (children : List Nat) : Bool :=
  children.all fun c => (s.dentries.get c).any fun C => sameName dot C.name || sameName dotdot C.name

/-- `fs_rmdir` -/
def rmdir (s : Fs) (path : CString) : Except Halt (Int × Fs) :=
  if path.length ≥ pathMax then .ok (enametoolong, s)
  else do
    let (found, s) ← s.dentryLookup path
    match found with
    | none => .ok (enoent, s)
    | some d =>
      match s.dentries.get d, s.inodeOf d with
      | some D, some inode =>
        if !isDir inode.mode then .ok (enotdir, s)
        else if D.nentries ≠ 2 then .ok (enotempty, s)
        else if !s.onlyDots D.children then .ok (einval, s)
        else do
          let s ← s.removeDentryAndChildren d
          let s ← s.destroyInode D.inode
          .ok (0, s)
      | _, _ => .error .fault

end Fs

end Cyanurus
