import SiteConfig.Main
import SiteConfig.Proofs.Agreement
import SiteConfig.Proofs.Attaching
import SiteConfig.Proofs.Collecting
import SiteConfig.Proofs.Commuting
import SiteConfig.Proofs.Delimiting
import SiteConfig.Proofs.FieldEdits
import SiteConfig.Proofs.Filling
import SiteConfig.Proofs.Merging
import SiteConfig.Proofs.Refusal
import SiteConfig.Proofs.Replacing
import SiteConfig.Proofs.Resaving
import SiteConfig.Proofs.Restating
import SiteConfig.Proofs.Rewriting
import SiteConfig.Proofs.Runs
import SiteConfig.Proofs.Session
import SiteConfig.Proofs.Shadowing
import SiteConfig.Proofs.Sifting
import SiteConfig.Proofs.Tutorials
import SiteConfig.Proofs.Upserting
import SiteConfig.Proofs.Versions
import SiteConfig.Proofs.Walks
