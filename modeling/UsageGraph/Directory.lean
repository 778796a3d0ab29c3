/-! Ids by key, and listings of children.

An owner lists its children in the order in which they were added and finds them again in
an index of its own. The list and the index are two records, written one after the other.
-/

set_option autoImplicit false
namespace UsageGraph

/-- Ids by key. What is inserted under a key hides what was found there before. -/
structure Index (κ ι : Type) where
  entries : List (κ × ι) := []
  deriving DecidableEq

namespace Index

variable {κ ι : Type}

def keys (index : Index κ ι) : List κ := index.entries.map Prod.fst

def insert (index : Index κ ι) (key : κ) (id : ι) : Index κ ι := ⟨(key, id) :: index.entries⟩

def find? [DecidableEq κ] (index : Index κ ι) (key : κ) : Option ι :=
  (index.entries.find? fun entry => entry.1 = key).map Prod.snd

@[simp] theorem keys_insert (index : Index κ ι) (key : κ) (id : ι) : (index.insert key id).keys = key :: index.keys :=
  rfl

end Index

structure Directory (κ ι : Type) where
  ids : List ι := []
  index : Index κ ι := {}
  deriving DecidableEq

namespace Directory

variable {κ ι : Type}

def insert (directory : Directory κ ι) (key : κ) (id : ι) : Directory κ ι :=
  let indexed := { directory with index := directory.index.insert key id }
  { indexed with ids := indexed.ids ++ [id] }

def find? [DecidableEq κ] (directory : Directory κ ι) (key : κ) : Option ι := directory.index.find? key

@[simp] theorem ids_insert (directory : Directory κ ι) (key : κ) (id : ι) :
    (directory.insert key id).ids = directory.ids ++ [id] := rfl

@[simp] theorem index_insert (directory : Directory κ ι) (key : κ) (id : ι) :
    (directory.insert key id).index = directory.index.insert key id := rfl

@[simp] theorem find?_empty [DecidableEq κ] (key : κ) : ({} : Directory κ ι).find? key = none := rfl

end Directory

end UsageGraph
