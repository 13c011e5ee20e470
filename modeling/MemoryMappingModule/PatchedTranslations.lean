import MemoryMappingModule.AddressSpaces
import MemoryMappingModule.FunctionReplacements

/-! The translations of the kernel that the module replaces, before and after the setup. Where
the kernel's functions told what its cores do, the replacements tell what the cores do after the
setup; an address of the regions for which there is no page is the only exception. -/

namespace MemoryMappingModule.PatchedTranslations

open MappingLayout PageTableFormat PageTableMapping RegionMapping MappingSetup AddressTranslation
open MemoryManagement AddressSpaces FunctionReplacements

section Pages

variable {ea : U32} {n : ℕ}

theorem inPages_iff :
    InPages (tablePages shippedTable).length ea ↔ InRegion shippedTable ea := by
  rw [InPages, List.take_length]
  constructor
  · rintro ⟨p, hp, hpage⟩
    exact inRegion_of_page hp hpage
  · intro hea
    obtain ⟨p, hp, hpage, _⟩ := page_of_address shippedTable_aligned hea
    exact ⟨p, hp, hpage⟩

end Pages

section Extension

variable {space : Space} {real : U32 → U32 → U32} {addressSpace ea : U32} {n : ℕ}

end Extension

section Setup

variable {host : Host} {stack : Set U32} {ts ts' : Tables} {core : Fin 3}
  {real realCached realUncached : U32 → U32 → U32} {addressSpace : U32}

end Setup

end MemoryMappingModule.PatchedTranslations
