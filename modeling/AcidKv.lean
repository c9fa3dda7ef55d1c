import AcidKv.Properties.Atomicity
import AcidKv.Properties.Clock
import AcidKv.Properties.Codecs
import AcidKv.Properties.CollectTwice
import AcidKv.Properties.Collection
import AcidKv.Properties.Collector
import AcidKv.Properties.CommitReplies
import AcidKv.Properties.Corruption
import AcidKv.Properties.Decisions
import AcidKv.Properties.Delivery
import AcidKv.Properties.Durability
import AcidKv.Properties.Epochs
import AcidKv.Properties.FailedPrewrite
import AcidKv.Properties.FreshReads
import AcidKv.Properties.Healing
import AcidKv.Properties.Interleavings
import AcidKv.Properties.Isolation
import AcidKv.Properties.Leases
import AcidKv.Properties.LogRefinement
import AcidKv.Properties.MedianSplits
import AcidKv.Properties.OneDecision
import AcidKv.Properties.Ownership
import AcidKv.Properties.Planes
import AcidKv.Properties.Provenance
import AcidKv.Properties.RangeScans
import AcidKv.Properties.RegionIds
import AcidKv.Properties.RegionKeys
import AcidKv.Properties.Rollback
import AcidKv.Properties.RouterIndexes
import AcidKv.Properties.SnapshotReads
import AcidKv.Properties.VersionReads
