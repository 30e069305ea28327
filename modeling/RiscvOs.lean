import RiscvOs.Props.Scheduling
import RiscvOs.Props.Processes
import RiscvOs.Props.Isolation
import RiscvOs.Props.Transparency
import RiscvOs.Props.Pointers
import RiscvOs.Props.Lifecycle
import RiscvOs.Props.Loading
import RiscvOs.Props.Tables
import RiscvOs.Props.Allocator
import RiscvOs.Props.Printing
import RiscvOs.Props.Shell
import RiscvOs.Props.Strings
import RiscvOs.Props.Halting
import RiscvOs.Props.Refinement
import RiscvOs.Props.Timer
import RiscvOs.Props.Apps
import RiscvOs.Props.Frames
import RiscvOs.Props.Sessions
