import Mathlib.Data.List.Basic

/-!
# Byte strings

Every `std::string` of the program is a finite sequence of bytes, with no
encoding attached: `PagedCacheServer.Bytes`. The literals of the source are
ASCII, and `PagedCacheServer.lit` reads them byte by byte.
-/

namespace PagedCacheServer

/-- A `std::string`. -/
abbrev Bytes := List UInt8

/-- A string literal of the source. -/
def lit (s : String) : Bytes := s.toList.map fun c => UInt8.ofNat c.toNat

end PagedCacheServer
