/-!
# The four moves

Insertion and removal of a segment undo each other, as do cutting a hole into a segment and closing
one.
-/

set_option autoImplicit false

namespace ImpuritySampler

inductive MoveKind where
  | insert
  | remove
  | split
  | regroup
deriving DecidableEq

namespace MoveKind

def name : MoveKind → String
  | insert => "insert_segment"
  | remove => "remove_segment"
  | split => "split_segment"
  | regroup => "regroup_segment"

def reverse : MoveKind → MoveKind
  | insert => remove
  | remove => insert
  | split => regroup
  | regroup => split

end MoveKind
end ImpuritySampler
