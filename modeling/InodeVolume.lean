import InodeVolume.Image.Workspace
import InodeVolume.Main
import InodeVolume.Kernel.Request
import InodeVolume.Mount
import InodeVolume.Tree.Operation
import InodeVolume.Proofs.Tree.BlockOwnership
import InodeVolume.Proofs.Tree.InodeOwnership
import InodeVolume.Proofs.Tree.Hierarchy
import InodeVolume.Proofs.Tree.References
import InodeVolume.Proofs.Tree.Faults
import InodeVolume.Proofs.Tree.Isolation
import InodeVolume.Proofs.Tree.Space
import InodeVolume.Proofs.Tree.Secrecy
import InodeVolume.Proofs.Tree.Restoration
import InodeVolume.Proofs.Kernel.Listing
import InodeVolume.Proofs.Image.Reopening
import InodeVolume.Proofs.Tree.Damage
import InodeVolume.Proofs.Kernel.Addressing
import InodeVolume.Proofs.Kernel.Interleaving
import InodeVolume.Proofs.Tree.Naming
import InodeVolume.Proofs.File.Supply
import InodeVolume.Proofs.File.Provision
import InodeVolume.Proofs.File.Consistency
import InodeVolume.Proofs.Tree.Truncation
import InodeVolume.Proofs.Tree.Writing
import InodeVolume.Proofs.Tree.ShortWrites
import InodeVolume.Proofs.Inode.Store
import InodeVolume.Proofs.File.Release
import InodeVolume.Proofs.File.Stages
import InodeVolume.Proofs.File.Inverse
import InodeVolume.Proofs.File.Access
import InodeVolume.Proofs.Directory.Places
import InodeVolume.Proofs.Directory.Mapping
import InodeVolume.Proofs.Tree.Paths
import InodeVolume.Proofs.Tree.Making
import InodeVolume.Proofs.Tree.Unnaming
import InodeVolume.Proofs.Tree.Moving
import InodeVolume.Proofs.Inode.Routes
import InodeVolume.Proofs.Kernel.Capacity
import InodeVolume.Proofs.Directory.Codec
import InodeVolume.Proofs.File.Lodging
import InodeVolume.Proofs.Image.Rooting
import InodeVolume.Proofs.Inode.Table
import InodeVolume.Proofs.File.Flat
import InodeVolume.Proofs.Volume.Pools
