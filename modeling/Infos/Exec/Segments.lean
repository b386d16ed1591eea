import Infos.Exec.LoadedImage

/-!
# When a program finds each segment as its file describes it

The loader maps the page of a segment's address, and as many behind it as the size in memory asks
for, unless this page is mapped. Which bytes a segment then has depends on the segments around it.
-/

open Infos.Bytes Infos.Prog Infos.Vma Infos.Images

namespace Infos.Exec

variable {α : Type} {P : PageSource α} {s : State α} {file : File} {contents : ℕ → UInt8}
  {cmdline : CmdLine}

def ELF64ProgramHeaderEntry.Within (ent : ELF64ProgramHeaderEntry) (a : ℕ) : Prop :=
  ent.vaddr.toNat ≤ a ∧ a < ent.vaddr.toNat + ent.memsz.toNat

end Infos.Exec
