import Chip8.Main
import Chip8.Proofs.OpcodeTable
import Chip8.Proofs.Layout
import Chip8.Proofs.LabelAddress
import Chip8.Proofs.Rendering
import Chip8.Proofs.Decoding
import Chip8.Proofs.LineGrammar
import Chip8.Proofs.Linking
import Chip8.Proofs.Referring
import Chip8.Proofs.LabelElimination
import Chip8.Proofs.Numerals
import Chip8.Proofs.Tracing
import Chip8.Proofs.Prefixes
import Chip8.Proofs.WrittenPrograms
import Chip8.Proofs.Renaming
import Chip8.Proofs.CommandLine
import Chip8.Proofs.Extensions
import Chip8.Proofs.Runs
import Chip8.Proofs.Checked
import Chip8.Proofs.Verbosity
import Chip8.Proofs.Scanning
import Chip8.Proofs.Emission
import Chip8.Proofs.Unreadable
import Chip8.Proofs.Spacing
import Chip8.Proofs.LineFeeds
import Chip8.Proofs.Culprits
import Chip8.Proofs.LineNumbers
import Chip8.Proofs.Consumption
import Chip8.Proofs.Literals
import Chip8.Proofs.Listings
import Chip8.Proofs.Histories
import Chip8.Proofs.LabelTable
import Chip8.Proofs.ImageListing
