/-!
# WidgetStyle.Value.NameHash — hashes of names

Names are identified by a 32-bit hash of their UTF-8 bytes: starting from 5381, every byte
multiplies by 33 and adds itself.  Different names can share a hash.
-/

namespace WidgetStyle.Value

/-- The hash after one more byte. -/
def hashStep (h : UInt32) (b : UInt8) : UInt32 := h * 33 + b.toUInt32

/-- The hash of a name. -/
def nameHash (name : String) : UInt32 := name.toUTF8.data.toList.foldl hashStep 5381

end WidgetStyle.Value
