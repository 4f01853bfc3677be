import KeyTree.Config.Process
import KeyTree.Main
import KeyTree.Session
import KeyTree.Proofs.Listing.Blocks
import KeyTree.Proofs.Listing.Interleaving
import KeyTree.Proofs.FileSystem.Commuting
import KeyTree.Proofs.FileSystem.ConflictFree
import KeyTree.Proofs.FileSystem.Materialization
import KeyTree.Proofs.FileSystem.PageSize
import KeyTree.Proofs.FileSystem.Deletion
import KeyTree.Proofs.FileSystem.Raising
import KeyTree.Proofs.FileSystem.Addressable
import KeyTree.Proofs.FileSystem.Asking
import KeyTree.Proofs.FileSystem.Spelling
import KeyTree.Proofs.FileSystem.Subtree
import KeyTree.Proofs.FileSystem.Reading
import KeyTree.Proofs.FileSystem.Emptiness
import KeyTree.Proofs.FileSystem.Agreement
import KeyTree.Proofs.FileSystem.Streaming
import KeyTree.Proofs.FileSystem.Nesting
import KeyTree.Proofs.Key.Segments
import KeyTree.Proofs.FileSystem.Markers
