/-!
# Sets of names

A set of names is a list without repetition, in the order of insertion.
-/

namespace DocWalk

/-- A finite set of names. -/
structure NameSet where
  names : List String
  nodup : names.Nodup
deriving DecidableEq, Repr

namespace NameSet

def empty : NameSet :=
  ⟨[], List.nodup_nil⟩

instance : Inhabited NameSet := ⟨empty⟩

/-- A set with one more name; a name it has already is not repeated. -/
def insert (s : NameSet) (name : String) : NameSet :=
  if h : name ∈ s.names then s
  else
    { names := s.names ++ [name]
      nodup := by
        rw [List.nodup_append]
        refine ⟨s.nodup, by simp, ?_⟩
        intro a ha b hb hab
        rw [List.mem_singleton] at hb
        exact h (hb ▸ hab ▸ ha) }

def insertAll (s : NameSet) (names : List String) : NameSet :=
  names.foldl insert s

def ofList (names : List String) : NameSet :=
  empty.insertAll names

/-- Whether two sets have the same names. -/
def equals (s t : NameSet) : Bool :=
  s.names.all t.names.contains && t.names.all s.names.contains

end NameSet

end DocWalk
