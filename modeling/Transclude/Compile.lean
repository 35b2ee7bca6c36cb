import Transclude.Expansion
import Transclude.ModuleFormat
import Transclude.Tree.Build

namespace Transclude

def buildTree (host : Host) (root : SourceFile) : Except IncludeError IncludeTree × Cache :=
  IncludeTree.build host root {}

def expand (host : Host) (root : SourceFile) : Except IncludeError Expansion × Cache :=
  let (tree, cache) := buildTree host root
  (tree.map Expansion.ofTree, cache)

def compile (host : Host) (format : ModuleFormat) (parameter : String) (root : SourceFile) :
    Except IncludeError String × Cache :=
  let (expansion, cache) := expand host root
  (expansion.map fun e ↦ format.assemble parameter (Expansion.templateBody parameter e), cache)

end Transclude
