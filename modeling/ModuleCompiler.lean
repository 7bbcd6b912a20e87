import ModuleCompiler.Main
import ModuleCompiler.Proofs.Arguments
import ModuleCompiler.Proofs.CategoryTags
import ModuleCompiler.Proofs.Containment
import ModuleCompiler.Proofs.Copies
import ModuleCompiler.Proofs.CopyFolder
import ModuleCompiler.Proofs.Descriptors
import ModuleCompiler.Proofs.Enclosure
import ModuleCompiler.Proofs.FileOrFolder
import ModuleCompiler.Proofs.HeaderLayout
import ModuleCompiler.Proofs.Histories
import ModuleCompiler.Proofs.Lifetimes
import ModuleCompiler.Proofs.Moving
import ModuleCompiler.Proofs.Nearest
import ModuleCompiler.Proofs.Opening
import ModuleCompiler.Proofs.Outputs
import ModuleCompiler.Proofs.PlainMap
import ModuleCompiler.Proofs.Preservation
import ModuleCompiler.Proofs.Rebuild
import ModuleCompiler.Proofs.Regeneration
import ModuleCompiler.Proofs.Safety
import ModuleCompiler.Proofs.Sharing
import ModuleCompiler.Proofs.Subtree
