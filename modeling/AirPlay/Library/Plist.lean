import AirPlay.Library.Bytes

/-! Property lists.

A tree of values, in which a dictionary has its items under names. The getters give an empty
value where there is none of the kind. -/

/-- A value of a property list. -/
inductive Plist where
  | bool (b : Bool)
  | uint (n : UInt64)
  | string (s : Bytes)
  | data (s : Bytes)
  | array (items : List Plist)
  | dict (items : List (Bytes × Plist))
  | other

namespace Plist

/-- `plist_dict_get_item`. -/
def item (parent : Plist) (key : Bytes) : Option Plist :=
  match parent with
  | dict items => items.lookup key
  | _ => none

/-- A C string ends at its first zero. -/
def getStr (parent : Plist) (key : Bytes) : Bytes :=
  match parent.item key with
  | some (string s) => s.takeWhile (· ≠ 0)
  | _ => []

def getUint (parent : Plist) (key : Bytes) : UInt64 :=
  match parent.item key with
  | some (uint n) => n
  | _ => 0

def getBool (parent : Plist) (key : Bytes) : Bool :=
  match parent.item key with
  | some (bool b) => b
  | _ => false

def getData (parent : Plist) (key : Bytes) : Bytes :=
  match parent.item key with
  | some (data s) => s
  | _ => []

end Plist
