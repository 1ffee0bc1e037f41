import ConfigArea.DeviceTree.Header

/-!
# The smallest device tree

A blob that holds an empty root node and nothing else, for areas put together by hand.
-/

namespace ConfigArea.DeviceTree

/-- The header of the smallest device tree. -/
def minimalHeader (bootCpu : UInt32) : Header :=
  ⟨magic, 72, 56, 72, 40, 17, 16, bootCpu, 0, 16⟩

/-- The smallest device tree: its header, an empty reserve map, and the tokens of an empty root. -/
def minimal (bootCpu : UInt32) : ByteArray :=
  -- the reserve map is its terminator, and the tokens begin a node, end it and end the blob
  ((minimalHeader bootCpu).toList ++ [0, 0, 0, 0] ++ [1, 0, 2, 9]).foldl
    (fun blob v => blob ++ (Word.encode v .big).toBytes) .empty

end ConfigArea.DeviceTree
