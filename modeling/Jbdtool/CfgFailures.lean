import Jbdtool.Base.Runs
import Jbdtool.CfgMap

/-! cfg_set_item where mallocs fail: when a call leaves the store as a reader sees it. -/
namespace Jbdtool.CfgStore
open CString

/-- A call with whatever names and values, and the mallocs that work in it. -/
structure Attempt where
  m : Mallocs
  sname : Bytes
  iname : Bytes
  desc : Option Bytes
  ival : Option Bytes

namespace Attempt
variable (a : Attempt)

def make (store : Store) : C (Int × Store) := cfgSetItem a.m store a.sname a.iname a.desc a.ival

def step (store : Store) (a : Attempt) : Option Store := ((a.make store).map Prod.snd).toOption

/-- What cfg_get_item returns stays what it was where the call returns 1, and is the new
value where it returns 0. -/
def Sound (store : Store) : Prop := ∃ r store', a.make store = .ok (r,store') ∧
  (r = 1 → ∀ (sname : Text Cfg.sectionNameSize) (keyword : Text Cfg.keywordSize),
    (cfgGetItem store' sname.1 keyword.1).map Prod.fst = (cfgGetItem store sname.1 keyword.1).map Prod.fst) ∧
  (r = 0 → (cfgGetItem store' a.sname a.iname).map Prod.fst = .ok a.ival)

section
variable {a} {c c1 : Contents}

end

end Attempt

end Jbdtool.CfgStore
