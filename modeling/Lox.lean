import Lox.Main
import Lox.Proofs.Outward
import Lox.Proofs.Recovery
import Lox.Proofs.Chunks
import Lox.Proofs.Dialogue
import Lox.Proofs.Division
import Lox.Proofs.Complaints
import Lox.Proofs.Returns
import Lox.Proofs.Agreement
import Lox.Proofs.PrintedNumbers
import Lox.Proofs.Lasting
import Lox.Proofs.OwnScope
import Lox.Proofs.LexicalSuper
import Lox.Proofs.ForLoops
import Lox.Proofs.Spacing
import Lox.Proofs.Apart
import Lox.Proofs.Culprits
import Lox.Proofs.Pictures
import Lox.Proofs.ErrorPlaces
import Lox.Proofs.Equality
import Lox.Proofs.Searching
import Lox.Proofs.Legible
import Lox.Proofs.PrintedTrees
import Lox.Proofs.Comments
import Lox.Proofs.ClassChains
